/-
**The turn tracker.**

`createSecTurnTracker` keeps the open work of a conversation from its events, and replaces it by a
snapshot. `observeAll` is what it keeps of a stream, and `fold` what a snapshot says.

* `run_iff`, `message_iff`, `tools_follow`: when a commit leaves a part as the snapshot after it has it.
* `tracker_folds`: in a run of such commits the tracker folds like a snapshot.
-/

import TianGong.Gibraltar.Calls
import Mathlib.Data.Finset.Basic

namespace TianGong.SecAgent

open TianGong.Gibraltar
open List

/-! ### The tracker -/

@[ext]
structure SecOpenState where
  runOpen : Bool
  messageOpen : Bool
  openToolCalls : Finset Text
  deriving DecidableEq

/-- What a tracker starts with. -/
def SecOpenState.initial : SecOpenState := ⟨false, false, ∅⟩

/-- The calls whose slots run. -/
def runningCalls (tools : List ToolSlot) : Finset Text :=
  ((tools.filter fun slot => slot.status = .running).map fun slot => slot.callId).toFinset

def fold (snapshot : SnapshotEvent) : SecOpenState where
  runOpen := snapshot.run.isSome
  messageOpen := (snapshot.generation.bind Generation.message).isSome
  openToolCalls := runningCalls snapshot.tools

/-- `event.message.role === "assistant"`. -/
def isAnswer : StartedMessage → Bool
  | .streamed _ => true
  | .entry message => message.isAssistant

def observe (state : SecOpenState) : AgentEvent → SecOpenState
  | .snapshot snapshot => fold snapshot
  | .runStart _ => { state with runOpen := true }
  | .runEnd _ => { state with runOpen := false }
  | .messageStart message =>
    if isAnswer message then { state with messageOpen := true } else state
  | .messageEnd _ => { state with messageOpen := false }
  | .toolExecutionStart call _ =>
    { state with openToolCalls := insert call.toolCallId state.openToolCalls }
  | .toolExecutionEnd call _ _ =>
    { state with openToolCalls := state.openToolCalls.erase call.toolCallId }
  | _ => state

/-- Every event, in order. -/
def observeAll (state : SecOpenState) (events : List AgentEvent) : SecOpenState :=
  events.foldl observe state

/-! ### The parts of the state -/

def observeRun (runOpen : Bool) : AgentEvent → Bool
  | .runStart _ => true
  | .runEnd _ => false
  | _ => runOpen

def observeMessage (messageOpen : Bool) : AgentEvent → Bool
  | .messageStart message => isAnswer message || messageOpen
  | .messageEnd _ => false
  | _ => messageOpen

def observeTool (calls : Finset Text) : AgentEvent → Finset Text
  | .toolExecutionStart call _ => insert call.toolCallId calls
  | .toolExecutionEnd call _ _ => calls.erase call.toolCallId
  | _ => calls

/-- A part that looks at one channel has seen the events of the channel. -/
theorem foldl_onChannel {Part : Type*} {channel : Channel} {observePart : Part → AgentEvent → Part}
    (deaf : ∀ part event, event.channel ≠ channel → observePart part event = part) (part : Part)
    (events : List AgentEvent) :
    events.foldl observePart part = (onChannel channel events).foldl observePart part := by
  induction events generalizing part with
  | nil => rfl
  | cons event events ih =>
    rw [foldl_cons, ih]
    unfold onChannel
    by_cases on : event.channel = channel
    · rw [filter_cons_of_pos (by simpa using on), foldl_cons]
    · rw [deaf part event on, filter_cons_of_neg (by simpa using on)]

theorem observeRun_deaf (runOpen : Bool) (event : AgentEvent) (off : event.channel ≠ .run) :
    observeRun runOpen event = runOpen := by
  cases event <;> first | rfl | exact (off rfl).elim

theorem observeMessage_deaf (messageOpen : Bool) (event : AgentEvent) (off : event.channel ≠ .message) :
    observeMessage messageOpen event = messageOpen := by
  cases event <;> first | rfl | exact (off rfl).elim

theorem observeTool_deaf (calls : Finset Text) (event : AgentEvent) (off : event.channel ≠ .tool) :
    observeTool calls event = calls := by
  cases event <;> first | rfl | exact (off rfl).elim

variable {events : List AgentEvent}

/-- **The parts of the state each follow one channel.** -/
theorem observeAll_eq (state : SecOpenState) (plain : onChannel .snapshot events = []) :
    observeAll state events =
      ⟨(onChannel .run events).foldl observeRun state.runOpen,
        (onChannel .message events).foldl observeMessage state.messageOpen,
        (onChannel .tool events).foldl observeTool state.openToolCalls⟩ := by
  have split : observeAll state events = ⟨events.foldl observeRun state.runOpen,
      events.foldl observeMessage state.messageOpen, events.foldl observeTool state.openToolCalls⟩ := by
    induction events generalizing state with
    | nil => rfl
    | cons event events ih =>
      have plainly := List.filter_eq_nil_iff.mp plain
      rw [observeAll, foldl_cons, ← observeAll, ih]
      · have first := plainly event mem_cons_self
        cases event with
        | snapshot snapshot => exact absurd (decide_eq_true rfl) first
        | messageStart message =>
          rw [observe, foldl_cons, foldl_cons, foldl_cons, observeMessage]
          cases isAnswer message <;> rfl
        | _ => rfl
      · exact List.filter_eq_nil_iff.mpr fun other isIn => plainly other (mem_cons_of_mem _ isIn)
  rw [split, ← foldl_onChannel observeRun_deaf, ← foldl_onChannel observeMessage_deaf,
    ← foldl_onChannel observeTool_deaf]

/-! ### What a commit leaves -/

variable {callId : Text}

section Parts

variable {was now : LiveState} {entries : List EntryRecord}

/-- **The run is followed** when a run does not come or go under one first input. -/
theorem run_iff :
    (runEnds was now ++ runStarts was now).foldl observeRun was.run.isSome = now.run.isSome ↔
      (now.firstInput = was.firstInput → was.run.isSome = now.run.isSome) := by
  unfold runEnds runStarts
  by_cases same : now.firstInput = was.firstInput
  · cases was.run <;> cases now.run <;> simp [same]
  · cases was.run <;> cases now.run <;> simp [same, observeRun]

/-- Some entry has a message. -/
def hasMessage (entries : List EntryRecord) : Bool := entries.any fun entry => entry.message.isSome

/-- Messages of entries leave no message open. -/
theorem foldl_entryMessages (streamed assistantAppended messageOpen : Bool) :
    (entryMessages streamed assistantAppended entries).foldl observeMessage messageOpen =
      (messageOpen && !hasMessage entries) := by
  induction entries generalizing assistantAppended messageOpen with
  | nil => simp [entryMessages, hasMessage]
  | cons entry rest ih =>
    unfold entryMessages hasMessage
    cases found : entry.message with
    | none =>
      dsimp only
      rw [ih, any_cons, found]
      rfl
    | some message =>
      dsimp only
      rw [foldl_append, foldl_cons, ih, any_cons, found]
      simp [observeMessage]

/-- **The message is followed** when no message is appended while an answer streams on, and no answer
vanishes without one. -/
theorem message_iff (viewOps : List (Chord.Op (Json Unit))) :
    (streamEvents viewOps was now ++ entryMessages was.streaming.isSome false entries).foldl
        observeMessage was.streaming.isSome = now.streaming.isSome ↔
      if hasMessage entries then now.streaming = none
      else was.streaming.isSome → now.streaming.isSome := by
  have streams : (streamEvents viewOps was now).foldl observeMessage was.streaming.isSome =
      (was.streaming.isSome || now.streaming.isSome) := by
    unfold streamEvents
    cases was.streaming with
    | none => cases now.streaming <;> rfl
    | some before =>
      cases now.streaming with
      | none => rfl
      | some message =>
        dsimp only
        split <;> rfl
  rw [foldl_append, streams, foldl_entryMessages]
  cases hasMessage entries <;> cases was.streaming <;> cases now.streaming <;> simp

/-! ### Tool calls -/

theorem mem_runningCalls {live : LiveState} (distinct : Distinct live) :
    callId ∈ runningCalls live.tools ↔ statusOf live callId = some .running := by
  rw [statusOf_iff distinct]
  unfold runningCalls
  simp only [mem_toFinset, mem_map, mem_filter, decide_eq_true_eq]
  grind

/-- Events that end nothing. -/
theorem mem_foldl_starts (noEnd : ∀ event ∈ events, event.ends = none) (calls : Finset Text) :
    callId ∈ events.foldl observeTool calls ↔
      callId ∈ calls ∨ ∃ event ∈ events, event.starts = some callId := by
  induction events generalizing calls with
  | nil => simp
  | cons event events ih =>
    rw [foldl_cons, ih fun other isIn => noEnd other (mem_cons_of_mem _ isIn)]
    have first := noEnd event mem_cons_self
    cases event with
    | toolExecutionStart call args =>
      have same : (AgentEvent.toolExecutionStart call args).starts = some callId ↔
          callId = call.toolCallId := by
        rw [AgentEvent.starts, Option.some.injEq, eq_comm]
      rw [exists_mem_cons_iff, observeTool, Finset.mem_insert, same, or_assoc, or_left_comm]
    | toolExecutionEnd call _ _ => cases first
    | _ => simp [observeTool, AgentEvent.starts]

/-- Events that start nothing. -/
theorem mem_foldl_ends (noStart : ∀ event ∈ events, event.starts = none) (calls : Finset Text) :
    callId ∈ events.foldl observeTool calls ↔
      callId ∈ calls ∧ ¬∃ event ∈ events, event.ends = some callId := by
  induction events generalizing calls with
  | nil => simp
  | cons event events ih =>
    rw [foldl_cons, ih fun other isIn => noStart other (mem_cons_of_mem _ isIn)]
    have first := noStart event mem_cons_self
    cases event with
    | toolExecutionStart call _ => cases first
    | toolExecutionEnd call _ _ =>
      simp only [observeTool, AgentEvent.ends, Finset.mem_erase, exists_mem_cons_iff,
        Option.some.injEq, not_or]
      grind
    | _ => simp [observeTool, AgentEvent.ends]

/-- A nested call ends under a call ID. -/
def NestedEnds (nestedResults : List (TaskId × Json Unit)) (was now : LiveState) (callId : Text) : Prop :=
  ∃ event ∈ nestedEnds nestedResults was now, event.ends = some callId

/-- **The calls that are open after a commit**, by the statuses of their slots. -/
theorem mem_open (before : Distinct was) (after : Distinct now) (published : Published)
    (viewOps : List (Chord.Op (Json Unit))) (callId : Text) :
    callId ∈ (toolStarts published.tasks was now ++ toolUpdates viewOps was now ++
        nestedEnds published.nestedResults was now ++
        entryEnds (toolEnds published.entries was now) published.entries ++
        ((toolEnds published.entries was now).filter fun ended => ended.entry.isNone).map
          ToolEnd.event).foldl observeTool (runningCalls was.tools) ↔
      (statusOf was callId = some .running ∨ statusOf now callId = some .running ∨
          NestedStarts was now callId) ∧
        ¬Finishes (statusOf was callId) (statusOf now callId) ∧
        ¬NestedEnds published.nestedResults was now callId := by
  have noEnd : ∀ event ∈ toolStarts published.tasks was now ++ toolUpdates viewOps was now,
      event.ends = none := by
    intro event isIn
    rcases mem_append.mp isIn with start | update
    · obtain ⟨call, args, rfl⟩ := toolStarts_start start
      rfl
    · obtain ⟨call, change, rfl⟩ := toolUpdates_update update
      rfl
  have noStart : ∀ event ∈ nestedEnds published.nestedResults was now ++
      (entryEnds (toolEnds published.entries was now) published.entries ++
        ((toolEnds published.entries was now).filter fun ended => ended.entry.isNone).map
          ToolEnd.event), event.starts = none := by
    intro event isIn
    rcases mem_append.mp isIn with nested | sent
    · obtain ⟨slot, -, rfl⟩ := nestedEnds_slot before after nested
      rfl
    · obtain ⟨ended, -, rfl⟩ := mem_sent.mp sent
      rfl
  have started : (∃ event ∈ toolStarts published.tasks was now ++ toolUpdates viewOps was now,
      event.starts = some callId) ↔ ∃ event ∈ toolStarts published.tasks was now,
        event.starts = some callId := by
    simp only [mem_append, or_and_right, exists_or]
    refine or_iff_left ?_
    rintro ⟨event, update, same⟩
    obtain ⟨call, change, rfl⟩ := toolUpdates_update update
    cases same
  have ended : (∃ event ∈ nestedEnds published.nestedResults was now ++
      (entryEnds (toolEnds published.entries was now) published.entries ++
        ((toolEnds published.entries was now).filter fun ended => ended.entry.isNone).map
          ToolEnd.event), event.ends = some callId) ↔
      NestedEnds published.nestedResults was now callId ∨
        Finishes (statusOf was callId) (statusOf now callId) := by
    have finishes : (∃ ended ∈ toolEnds published.entries was now, ended.call.toolCallId = callId) ↔ _ :=
      ends_iff before after
    rw [← finishes]
    unfold NestedEnds
    simp only [mem_append (s := nestedEnds _ _ _), mem_sent, or_and_right, exists_or]
    refine or_congr_right ?_
    constructor
    · rintro ⟨_, ⟨ended, isIn, rfl⟩, same⟩
      exact ⟨ended, isIn, Option.some.inj same⟩
    · rintro ⟨ended, isIn, rfl⟩
      exact ⟨_, ⟨ended, isIn, rfl⟩, rfl⟩
  rw [append_assoc, append_assoc _ (nestedEnds _ _ _), foldl_append,
    mem_foldl_ends noStart, mem_foldl_starts noEnd, started, ended, starts_iff after,
    mem_runningCalls before]
  by_cases same : statusOf was callId = some .running
  · simp [same, and_comm]
  · simp [same, and_comm]

end Parts

/-! ### A commit -/

/-- **What a commit the tracker follows does not do**: have a run come or go under one first input, append
a message while an answer streams on, drop an answer without one, set a running call back, or start a
nested call. -/
structure Followed (was now : LiveState) (entries : List EntryRecord) : Prop where
  run : now.firstInput = was.firstInput → was.run.isSome = now.run.isSome
  message : if hasMessage entries then now.streaming = none
    else was.streaming.isSome → now.streaming.isSome
  kept : ∀ slot ∈ was.tools, slot.status = .running → ∀ later ∈ now.tools,
    later.callId = slot.callId → later.status ≠ .pending
  nested : ∀ slot ∈ now.nestedTools, slot.status = .running →
    ∃ previous ∈ was.nestedTools, previous.taskId = slot.taskId ∧ previous.status = .running

section Commits

variable {was now : LiveState}

theorem nestedEnds_named (named : Named was now) {nestedResults : List (TaskId × Json Unit)}
    (ends : NestedEnds nestedResults was now callId) :
    ∃ slot ∈ was.nestedTools ++ now.nestedTools, slot.callId = callId := by
  obtain ⟨event, isIn, same⟩ := ends
  obtain ⟨slot, listed, rfl⟩ := nestedEnds_slot named.before named.after isIn
  exact ⟨slot, mem_append.mpr (listed.symm.imp And.left And.left), Option.some.inj same⟩

/-- A call of the round does not end as a nested call. -/
theorem not_nestedEnds (named : Named was now) {nestedResults : List (TaskId × Json Unit)}
    (ofRound : statusOf was callId ≠ none ∨ statusOf now callId ≠ none) :
    ¬NestedEnds nestedResults was now callId := by
  intro ends
  obtain ⟨nested, isNested, rfl⟩ := nestedEnds_named named ends
  rcases ofRound with before | after
  · obtain ⟨status, has⟩ := Option.ne_none_iff_exists'.mp before
    obtain ⟨slot, listed, same, -⟩ := (statusOf_iff named.before).mp has
    exact named.apart slot (mem_append_left _ listed) nested isNested same
  · obtain ⟨status, has⟩ := Option.ne_none_iff_exists'.mp after
    obtain ⟨slot, listed, same, -⟩ := (statusOf_iff named.after).mp has
    exact named.apart slot (mem_append_right _ listed) nested isNested same

/-- **The calls are followed** when none is set back and no nested call starts. -/
theorem tools_follow (named : Named was now) {entries : List EntryRecord}
    (followed : Followed was now entries) (nestedResults : List (TaskId × Json Unit)) (callId : Text) :
    ((statusOf was callId = some .running ∨ statusOf now callId = some .running ∨
          NestedStarts was now callId) ∧
        ¬Finishes (statusOf was callId) (statusOf now callId) ∧
        ¬NestedEnds nestedResults was now callId) ↔ statusOf now callId = some .running := by
  have noStart : ¬NestedStarts was now callId := by
    rintro ⟨slot, listed, -, running, not⟩
    obtain ⟨previous, there, same, ran⟩ := followed.nested slot listed running
    rw [← same, nestedStatus_slot named.before there, ran] at not
    exact not rfl
  have kept : statusOf was callId = some .running → statusOf now callId ≠ some .pending := by
    intro ran pending
    obtain ⟨slot, listed, rfl, running⟩ := (statusOf_iff named.before).mp ran
    obtain ⟨later, there, same, back⟩ := (statusOf_iff named.after).mp pending
    exact followed.kept slot listed running later there same back
  constructor
  · rintro ⟨ran | runs | starts, unfinished, -⟩
    · have notBack := kept ran
      rw [ran] at unfinished
      cases status : statusOf now callId with
      | none => exact (unfinished (.inr status)).elim
      | some after =>
        cases after with
        | pending => exact (notBack status).elim
        | running => rfl
        | done => exact (unfinished (.inl status)).elim
    · exact runs
    · exact (noStart starts).elim
  · intro runs
    refine ⟨.inr (.inl runs), ?_, not_nestedEnds named (.inr (by rw [runs]; exact Option.some_ne_none _))⟩
    rw [runs]
    cases statusOf was callId with
    | none => exact fun done => by cases done
    | some status => cases status <;> simp [Finishes]

/-- **A commit that does so is not followed.** -/
theorem followed_tools (named : Named was now) (oneTask : OneTask was now)
    (nestedResults : List (TaskId × Json Unit))
    (follows : ∀ callId, ((statusOf was callId = some .running ∨ statusOf now callId = some .running ∨
          NestedStarts was now callId) ∧
        ¬Finishes (statusOf was callId) (statusOf now callId) ∧
        ¬NestedEnds nestedResults was now callId) ↔ statusOf now callId = some .running) :
    (∀ slot ∈ was.tools, slot.status = .running → ∀ later ∈ now.tools,
      later.callId = slot.callId → later.status ≠ .pending) ∧
    ∀ slot ∈ now.nestedTools, slot.status = .running →
      ∃ previous ∈ was.nestedTools, previous.taskId = slot.taskId ∧ previous.status = .running := by
  constructor
  · intro slot listed running later there same pending
    have ran := statusOf_slot named.before listed
    have back := statusOf_slot named.after there
    rw [running] at ran
    rw [same, pending] at back
    have open_ := (follows slot.callId).mp
      ⟨.inl ran, by simp [ran, back, Finishes], not_nestedEnds named (.inl (by rw [ran]; simp))⟩
    rw [back] at open_
    cases open_
  · intro slot listed running
    by_contra fresh
    have starts : NestedStarts was now slot.callId := by
      refine ⟨slot, listed, rfl, running, fun ran => fresh ?_⟩
      obtain ⟨previous, found, status⟩ := Option.map_eq_some_iff.mp ran
      obtain ⟨there, same⟩ := (nestedOf_iff named.before).mp found
      exact ⟨previous, there, same, status⟩
    have isNested := mem_append_right was.nestedTools listed
    have notBefore : statusOf was slot.callId = none := by
      rw [statusOf, Option.map_eq_none_iff, slotOf_none named.before]
      exact fun other there => named.apart other (mem_append_left _ there) slot isNested
    have notAfter : statusOf now slot.callId = none := by
      rw [statusOf, Option.map_eq_none_iff, slotOf_none named.after]
      exact fun other there => named.apart other (mem_append_right _ there) slot isNested
    have noEnd : ¬NestedEnds nestedResults was now slot.callId := by
      rintro ⟨event, isIn, same⟩
      obtain ⟨ended, ⟨there, done⟩ | ⟨there, gone⟩, rfl⟩ := nestedEnds_slot named.before named.after isIn
      · have one := oneTask ended (mem_append_right _ there) slot isNested (Option.some.inj same)
        have equal := inj_on_of_nodup_map named.after.nested there listed one
        rw [equal, running] at done
        cases done
      · have one := oneTask ended (mem_append_left _ there) slot isNested (Option.some.inj same)
        rw [one, (nestedOf_iff named.after).mpr ⟨listed, rfl⟩] at gone
        cases gone
    have open_ := (follows slot.callId).mp
      ⟨.inr (.inr starts), by simp [notBefore, notAfter, Finishes], noEnd⟩
    rw [notAfter] at open_
    cases open_

end Commits

/-! ### A batch -/

section Batch

/-- A commit whose call IDs tell its calls apart. -/
def CallsNamed (watch : AgentWatch) (commit : Commit) : Prop :=
  Named watch.current.live commit.view.live ∧ OneTask watch.current.live commit.view.live

/-- A commit that the tracker follows. -/
def CommitFollowed (watch : AgentWatch) (commit : Commit) : Prop :=
  Named watch.current.live commit.view.live ∧
    Followed watch.current.live commit.view.live (entriesOf watch commit)

/-- The state a snapshot of a view says. -/
def shown (view : ConversationView) : SecOpenState := fold (snapshotOf view)

theorem shown_eq (view : ConversationView) : shown view =
    ⟨view.live.run.isSome, view.live.streaming.isSome, runningCalls view.live.tools⟩ := by
  refine SecOpenState.ext ?_ rfl rfl
  exact Option.isSome_map

variable {watch : AgentWatch} {commit : Commit}

/-- A commit that changes nothing is followed. -/
theorem followed_same {live : LiveState} (distinct : Distinct live) : Followed live live [] where
  run := fun _ => rfl
  message := id
  kept := by
    intro slot listed running later there same pending
    have equal := inj_on_of_nodup_map distinct.tools there listed same
    rw [equal, running] at pending
    cases pending
  nested := fun slot listed running => ⟨slot, listed, rfl, running⟩

/-- **A batch leaves the state the next snapshot says** exactly when its commit is followed. -/
theorem batch_iff (advances : Advances watch commit)
    (named : Named watch.current.live commit.view.live) :
    (CommitFollowed watch commit →
      observeAll (shown watch.current) (watch.batch commit) = shown commit.view) ∧
    (OneTask watch.current.live commit.view.live →
      observeAll (shown watch.current) (watch.batch commit) = shown commit.view →
        CommitFollowed watch commit) := by
  unfold AgentWatch.batch Gibraltar.translate
  dsimp only
  split
  · rename_i quiet
    obtain ⟨noOps, noEntries, -⟩ := quiet
    have same := advances noOps
    refine ⟨fun _ => by rw [same]; rfl, fun _ _ => ?_⟩
    unfold CommitFollowed entriesOf
    rw [noEntries, same]
    rw [same] at named
    exact ⟨named, followed_same named.before⟩
  · have plain := channel_snapshot (publishedOf watch.conversationId commit.changes) watch.current
      commit.view commit.ops watch.held
    have tools := mem_open named.before named.after (publishedOf watch.conversationId commit.changes)
      commit.ops
    rw [observeAll_eq _ plain, channel_run, channel_message, channel_tool, shown_eq, shown_eq]
    constructor
    · rintro ⟨-, followed⟩
      refine SecOpenState.ext (run_iff.mpr followed.run) ((message_iff _).mpr followed.message)
        (Finset.ext fun callId => ?_)
      rw [tools callId, tools_follow named followed, mem_runningCalls named.after]
    · intro oneTask same
      have calls := fun callId => (tools callId).symm.trans
        ((Finset.ext_iff.mp (congrArg SecOpenState.openToolCalls same) callId).trans
          (mem_runningCalls named.after))
      obtain ⟨kept, nested⟩ := followed_tools named oneTask _ calls
      exact ⟨named, run_iff.mp (congrArg SecOpenState.runOpen same),
        (message_iff _).mp (congrArg SecOpenState.messageOpen same), kept, nested⟩

end Batch

/-! ### Runs -/

/-- Some commits, delivered batch by batch, or replaced by one snapshot. -/
structure Delivery where
  overflowed : Bool
  commits : List Commit

/-- What a consumer is given. -/
def delivered (watch : AgentWatch) : List Delivery → List AgentEvent
  | [] => []
  | delivery :: rest =>
    (if delivery.overflowed then [.snapshot (snapshotOf (watch.after delivery.commits).current)]
      else watch.stream delivery.commits) ++ delivered (watch.after delivery.commits) rest

section Runs

variable {watch : AgentWatch} {commits : List Commit}

theorem observeAll_append (state : SecOpenState) (first second : List AgentEvent) :
    observeAll state (first ++ second) = observeAll (observeAll state first) second := foldl_append

/-- **A followed run**: the tracker has the state that a snapshot at its end says. -/
theorem run_follows (advances : Along Advances watch commits)
    (followed : Along CommitFollowed watch commits) :
    observeAll (shown watch.current) (watch.stream commits) = shown (watch.after commits).current := by
  induction commits generalizing watch with
  | nil => rfl
  | cons commit commits ih =>
    obtain ⟨advance, advances⟩ := advances
    obtain ⟨follow, followed⟩ := followed
    rw [AgentWatch.stream, observeAll_append, (batch_iff advance follow.1).1 follow]
    exact ih advances followed

/-- A run that follows, some of it overflown. -/
theorem deliveries_follow {deliveries : List Delivery}
    (advances : Along Advances watch (deliveries.flatMap Delivery.commits))
    (followed : Along CommitFollowed watch (deliveries.flatMap Delivery.commits)) :
    observeAll (shown watch.current) (delivered watch deliveries) =
      shown (watch.after (deliveries.flatMap Delivery.commits)).current := by
  induction deliveries generalizing watch with
  | nil => rfl
  | cons delivery rest ih =>
    rw [flatMap_cons, along_append] at advances followed
    have step : observeAll (shown watch.current)
        (if delivery.overflowed then [.snapshot (snapshotOf (watch.after delivery.commits).current)]
          else watch.stream delivery.commits) = shown (watch.after delivery.commits).current := by
      split
      · rfl
      · exact run_follows advances.1 followed.1
    rw [delivered, observeAll_append, step, ih advances.2 followed.2, flatMap_cons,
      AgentWatch.after_append]

/-- A run in which the tracker always has the state a snapshot says. -/
theorem followed_of_shown (advances : Along Advances watch commits)
    (named : Along CallsNamed watch commits)
    (shows : ∀ first rest, commits = first ++ rest →
      observeAll (shown watch.current) (watch.stream first) = shown (watch.after first).current) :
    Along CommitFollowed watch commits := by
  induction commits generalizing watch with
  | nil => trivial
  | cons commit commits ih =>
    obtain ⟨advance, advances⟩ := advances
    obtain ⟨⟨own, oneTask⟩, named⟩ := named
    have first : observeAll (shown watch.current) (watch.batch commit) = shown commit.view := by
      have one := shows [commit] commits rfl
      rwa [AgentWatch.stream, AgentWatch.stream, append_nil] at one
    refine ⟨(batch_iff advance own).2 oneTask first, ih advances named fun before rest same => ?_⟩
    have more := shows (commit :: before) rest (by rw [same]; rfl)
    rwa [AgentWatch.stream, observeAll_append, first] at more

end Runs

/-- **When the tracker folds like a snapshot.** In a run whose commits are all followed, the tracker has at
every point the state that a fresh tracker takes from a snapshot of the current view, and it reports the
same when any of its batches are replaced by snapshots. And in a run whose call IDs tell its calls apart,
that is so at every point only if every commit is followed. -/
theorem tracker_folds (watch : AgentWatch) (commits : List Commit)
    (advances : Along Advances watch commits) :
    (Along CommitFollowed watch commits →
      (∀ first rest, commits = first ++ rest →
        observeAll .initial (.snapshot (snapshotOf watch.current) :: watch.stream first) =
          observeAll .initial [.snapshot (snapshotOf (watch.after first).current)]) ∧
      ∀ deliveries rest, commits = deliveries.flatMap Delivery.commits ++ rest →
        observeAll .initial (.snapshot (snapshotOf watch.current) :: delivered watch deliveries) =
          observeAll .initial (.snapshot (snapshotOf watch.current) ::
            watch.stream (deliveries.flatMap Delivery.commits))) ∧
    (Along CallsNamed watch commits →
      (∀ first rest, commits = first ++ rest →
        observeAll .initial (.snapshot (snapshotOf watch.current) :: watch.stream first) =
          observeAll .initial [.snapshot (snapshotOf (watch.after first).current)]) →
      Along CommitFollowed watch commits) := by
  refine ⟨fun followed => ⟨?_, ?_⟩, followed_of_shown advances⟩
  · rintro first rest rfl
    exact run_follows (along_append.mp advances).1 (along_append.mp followed).1
  · rintro deliveries rest rfl
    exact (deliveries_follow (along_append.mp advances).1 (along_append.mp followed).1).trans
      (run_follows (along_append.mp advances).1 (along_append.mp followed).1).symm

/-! ### Runs that are not followed -/

/-- A view of some entries and a live state. -/
def liveView (entries : List EntryRecord) (live : LiveState) : ConversationView :=
  ⟨entries, ⟨some live, none, none, none⟩⟩

/-- A path in `tg.live`. -/
def livePath (path : Chord.Path) : Chord.Path := [.key (text "docs"), .key (text "tg.live")] ++ path

/-- A tool that runs, and a call it made. -/
def nestedLive (status : SlotStatus) : LiveState :=
  { LiveState.initial with
    run := some ⟨1, [1]⟩
    tools := [⟨⟨text "c", text "t", .running, none, none, none⟩, some 2, none⟩]
    nestedTools := [⟨⟨text "c/1", text "t", status, none, none, none⟩, text "c", 2, 3, .object () []⟩] }

/-- The nested call starts. -/
def nestedStart : Commit where
  view := liveView [] (nestedLive .running)
  ops := [.s (livePath [.key (text "nestedTools"), .index 0, .key (text "status")])
    (.string (text "running"))]
  changes := []

/-- An answer that streams. -/
def streamingLive : LiveState :=
  { LiveState.initial with
    run := some ⟨1, [1]⟩
    generation := some ⟨1, some ⟨0, ⟨.null, []⟩⟩, none, none⟩ }

/-- A message of a user. -/
def userEntry : EntryRecord := ⟨1, text "tg.user", some [.user .null], none, none⟩

/-- A message is appended, and the live state is another one, or not. -/
def userCommit (live : LiveState) (ops : List (Chord.Op (Json Unit))) : Commit where
  view := liveView [userEntry] live
  ops := ops ++ [.p [.key (text "entries")] 0 0 [.null]]
  changes := [.entry 1 userEntry]

/-- **A nested call that starts, and a message appended while an answer streams**: the tracker has a call
open that a snapshot does not name, and misses an answer that goes on. -/
theorem tracker_differs :
    (observeAll .initial (.snapshot (snapshotOf (liveView [] (nestedLive .pending))) ::
        AgentWatch.stream ⟨1, liveView [] (nestedLive .pending), []⟩ [nestedStart])).openToolCalls =
      {text "c", text "c/1"} ∧
    (observeAll .initial [.snapshot (snapshotOf (AgentWatch.after
        ⟨1, liveView [] (nestedLive .pending), []⟩ [nestedStart]).current)]).openToolCalls =
      {text "c"} ∧
    (observeAll .initial (.snapshot (snapshotOf (liveView [] streamingLive)) ::
        AgentWatch.stream ⟨1, liveView [] streamingLive, []⟩
          [userCommit streamingLive []])).messageOpen = false ∧
    (observeAll .initial [.snapshot (snapshotOf (AgentWatch.after ⟨1, liveView [] streamingLive, []⟩
        [userCommit streamingLive []]).current)]).messageOpen = true := by
  refine ⟨?_, ?_, ?_, ?_⟩ <;> decide +kernel

/-- The answer and its run end. -/
def answerCommit : Commit :=
  userCommit LiveState.initial [.d (livePath [.key (text "run")]), .d (livePath [.key (text "generation")])]

theorem tracker_folds_answer :
    observeAll .initial (.snapshot (snapshotOf (liveView [] streamingLive)) ::
        AgentWatch.stream ⟨1, liveView [] streamingLive, []⟩ [answerCommit]) =
      observeAll .initial [.snapshot (snapshotOf (liveView [userEntry] LiveState.initial))] := by
  have before : Distinct streamingLive := ⟨nodup_nil, nodup_nil⟩
  have named : Named streamingLive LiveState.initial :=
    ⟨before, ⟨nodup_nil, nodup_nil⟩, fun _ isIn => (not_mem_nil isIn).elim⟩
  have followed : Followed streamingLive LiveState.initial [userEntry] :=
    ⟨fun same => absurd same (by decide), rfl, fun _ isIn => (not_mem_nil isIn).elim,
      fun _ isIn => (not_mem_nil isIn).elim⟩
  exact ((tracker_folds ⟨1, liveView [] streamingLive, []⟩ [answerCommit]
    ⟨fun none => (cons_ne_nil _ _ none).elim, trivial⟩).1
      ⟨⟨named, followed⟩, trivial⟩).1 _ [] rfl

end TianGong.SecAgent
