/-
**What the events of a commit say of one call.**

A call of the round is known by its call ID, and a nested call by the ID of its task. Where these are
distinct, the events of a commit about a call follow from the status of its slot before and after it.

* `ends_iff`: which calls of the round end; `nestedEnds_slot`: which nested calls do.
-/

import TianGong.Gibraltar.Channels

namespace TianGong.Gibraltar

open List
open TianGong.Chord

/-! ### The calls that events are about -/

namespace AgentEvent

/-- The call that an event starts. -/
def starts : AgentEvent → Option Text
  | .toolExecutionStart call _ => some call.toolCallId
  | _ => none

/-- The call that an event ends. -/
def ends : AgentEvent → Option Text
  | .toolExecutionEnd call _ _ => some call.toolCallId
  | _ => none

end AgentEvent

/-! ### Statuses -/

/-- The status of a call of the round. -/
def statusOf (live : LiveState) (callId : Text) : Option SlotStatus :=
  (slotOf live callId).map fun slot => slot.status

/-- The status of a nested call. -/
def nestedStatus (live : LiveState) (taskId : TaskId) : Option SlotStatus :=
  (nestedOf live taskId).map fun slot => slot.status

/-- Every call of the round has its own call ID, and every nested call its own task. -/
structure Distinct (live : LiveState) : Prop where
  tools : (live.tools.map fun slot => slot.callId).Nodup
  nested : (live.nestedTools.map NestedToolSlot.taskId).Nodup

/-- The call IDs of a commit tell its calls apart: within a list of slots each names one, and none is that
of a call of the round and of a nested call. -/
structure Named (was now : LiveState) : Prop where
  before : Distinct was
  after : Distinct now
  apart : ∀ slot ∈ was.tools ++ now.tools, ∀ nested ∈ was.nestedTools ++ now.nestedTools,
    slot.callId ≠ nested.callId

/-- Nested calls of one call ID are one call. -/
def OneTask (was now : LiveState) : Prop :=
  ∀ slot ∈ was.nestedTools ++ now.nestedTools, ∀ other ∈ was.nestedTools ++ now.nestedTools,
    slot.callId = other.callId → slot.taskId = other.taskId

variable {callId : Text}

section Status

variable {live : LiveState} (distinct : Distinct live)

include distinct

theorem slotOf_iff {slot : ToolSlot} :
    slotOf live callId = some slot ↔ slot ∈ live.tools ∧ slot.callId = callId :=
  get_mapOf distinct.tools

theorem nestedOf_iff {taskId : TaskId} {slot : NestedToolSlot} :
    nestedOf live taskId = some slot ↔ slot ∈ live.nestedTools ∧ slot.taskId = taskId :=
  get_mapOf distinct.nested

theorem statusOf_iff {status : SlotStatus} :
    statusOf live callId = some status ↔ ∃ slot ∈ live.tools, slot.callId = callId ∧ slot.status = status := by
  unfold statusOf
  simp only [Option.map_eq_some_iff, slotOf_iff distinct, and_assoc]

theorem statusOf_slot {slot : ToolSlot} (listed : slot ∈ live.tools) :
    statusOf live slot.callId = some slot.status := (statusOf_iff distinct).mpr ⟨slot, listed, rfl, rfl⟩

theorem nestedStatus_slot {slot : NestedToolSlot} (listed : slot ∈ live.nestedTools) :
    nestedStatus live slot.taskId = some slot.status := by
  unfold nestedStatus
  rw [(nestedOf_iff distinct).mpr ⟨listed, rfl⟩]
  rfl

theorem slotOf_none : slotOf live callId = none ↔ ∀ slot ∈ live.tools, slot.callId ≠ callId := by
  rw [Option.eq_none_iff_forall_ne_some]
  simp only [ne_eq, slotOf_iff distinct, not_and]

theorem find_slot (callId : Text) :
    (live.tools.find? fun candidate => candidate.callId = callId) = slotOf live callId := by
  cases found : live.tools.find? fun candidate => candidate.callId = callId with
  | none =>
    rw [List.find?_eq_none] at found
    exact ((slotOf_none distinct).mpr fun slot listed same => found slot listed (decide_eq_true same)).symm
  | some slot =>
    have same := List.find?_some found
    exact ((slotOf_iff distinct).mpr ⟨List.mem_of_find?_eq_some found, of_decide_eq_true same⟩).symm

end Status

/-! ### Starts -/

variable {event : AgentEvent}

section Commits

variable {was now : LiveState} {entries : List EntryRecord} {callId : Text}

/-- A nested call starts under a call ID. -/
def NestedStarts (was now : LiveState) (callId : Text) : Prop :=
  ∃ slot ∈ now.nestedTools, slot.callId = callId ∧ slot.status = .running ∧
    nestedStatus was slot.taskId ≠ some .running

/-- **The calls that start** are those that run after the commit and did not before. -/
theorem starts_iff (distinct : Distinct now) (tasks : List (TaskId × TaskRecord)) :
    (∃ event ∈ toolStarts tasks was now, event.starts = some callId) ↔
      (statusOf now callId = some .running ∧ statusOf was callId ≠ some .running) ∨
        NestedStarts was now callId := by
  unfold toolStarts NestedStarts
  simp only [mem_append, mem_map, mem_filter, decide_eq_true_eq, or_and_right, exists_or,
    statusOf_iff distinct]
  refine or_congr ⟨?_, ?_⟩ ⟨?_, ?_⟩
  · rintro ⟨_, ⟨slot, ⟨listed, running, not⟩, rfl⟩, same⟩
    cases same
    exact ⟨⟨slot, listed, rfl, running⟩, not⟩
  · rintro ⟨⟨slot, listed, rfl, running⟩, not⟩
    exact ⟨_, ⟨slot, ⟨listed, running, not⟩, rfl⟩, rfl⟩
  · rintro ⟨_, ⟨slot, ⟨listed, running, not⟩, rfl⟩, same⟩
    cases same
    exact ⟨slot, listed, rfl, running, not⟩
  · rintro ⟨slot, listed, rfl, running, not⟩
    exact ⟨_, ⟨slot, ⟨listed, running, not⟩, rfl⟩, rfl⟩

theorem toolStarts_start {tasks : List (TaskId × TaskRecord)}
    (isIn : event ∈ toolStarts tasks was now) :
    ∃ call args, event = .toolExecutionStart call args := by
  rcases List.mem_append.mp isIn with round | nested
  · obtain ⟨slot, -, rfl⟩ := List.mem_map.mp round
    exact ⟨_, _, rfl⟩
  · obtain ⟨slot, -, rfl⟩ := List.mem_map.mp nested
    exact ⟨_, _, rfl⟩

theorem toolUpdates_update {viewOps : List (Op (Json Unit))}
    (isIn : event ∈ toolUpdates viewOps was now) :
    ∃ call update, event = .toolExecutionUpdate call update := by
  rcases List.mem_append.mp isIn with here | here <;>
  · obtain ⟨at_, -, shows⟩ := List.mem_filterMap.mp here
    split at shows
    · split at shows
      · obtain ⟨update, -, rfl⟩ := Option.map_eq_some_iff.mp shows
        exact ⟨_, _, rfl⟩
      · cases shows
    · cases shows

/-! ### Ends -/

/-- A call whose slot becomes done, or vanishes before that, or is created done. -/
def Finishes : Option SlotStatus → Option SlotStatus → Prop
  | none, after => after = some .done
  | some .done, _ => False
  | some _, after => after = some .done ∨ after = none

theorem slotEnd_iff (after : Distinct now) {previous : ToolSlot} :
    (∃ ended, slotEnd entries now previous = some ended ∧ ended.call.toolCallId = callId) ↔
      previous.callId = callId ∧ Finishes (some previous.status) (statusOf now previous.callId) := by
  unfold slotEnd statusOf
  rw [find_slot after]
  have here {slot : ToolSlot} (found : slotOf now previous.callId = some slot) :
      slot.callId = previous.callId := ((slotOf_iff after).mp found).2
  cases status : previous.status with
  | done => simp [Finishes]
  | pending | running =>
    cases found : slotOf now previous.callId with
    | none => simp [Finishes, endTool, ToolSlot.call]
    | some slot =>
      rw [← here found]
      cases later : slot.status <;> simp [Finishes, endTool, ToolSlot.call, later]

/-- The calls that end and were there. -/
theorem oldEnds_iff (before : Distinct was) (after : Distinct now) :
    (∃ ended ∈ was.tools.filterMap (slotEnd entries now), ended.call.toolCallId = callId) ↔
      ∃ status, statusOf was callId = some status ∧ Finishes (some status) (statusOf now callId) := by
  simp only [mem_filterMap, statusOf_iff before]
  constructor
  · rintro ⟨ended, ⟨previous, listed, shows⟩, same⟩
    obtain ⟨rfl, finishes⟩ := (slotEnd_iff after).mp ⟨ended, shows, same⟩
    exact ⟨previous.status, ⟨previous, listed, rfl, rfl⟩, finishes⟩
  · rintro ⟨_, ⟨previous, listed, rfl, rfl⟩, finishes⟩
    obtain ⟨ended, shows, same⟩ := (slotEnd_iff after).mpr ⟨rfl, finishes⟩
    exact ⟨ended, ⟨previous, listed, shows⟩, same⟩

/-- The calls that are created done. -/
theorem newEnds_iff (after : Distinct now) :
    (∃ ended ∈ (now.tools.filter fun slot => slot.status = .done ∧ slotOf was slot.callId = none).map
        (fun slot => endTool entries slot slot.entry), ended.call.toolCallId = callId) ↔
      statusOf was callId = none ∧ statusOf now callId = some .done := by
  simp only [mem_map, mem_filter, decide_eq_true_eq, statusOf_iff after]
  unfold statusOf
  rw [Option.map_eq_none_iff]
  constructor
  · rintro ⟨_, ⟨slot, ⟨listed, done, fresh⟩, rfl⟩, rfl⟩
    exact ⟨fresh, slot, listed, rfl, done⟩
  · rintro ⟨fresh, slot, listed, rfl, done⟩
    exact ⟨_, ⟨slot, ⟨listed, done, fresh⟩, rfl⟩, rfl⟩

/-- **The calls of the round that end.** -/
theorem ends_iff (before : Distinct was) (after : Distinct now) :
    (∃ ended ∈ toolEnds entries was now, ended.call.toolCallId = callId) ↔
      Finishes (statusOf was callId) (statusOf now callId) := by
  unfold toolEnds
  rw [values_mapOf before.tools]
  simp only [mem_append, or_and_right, exists_or]
  rw [oldEnds_iff before after, newEnds_iff after]
  cases statusOf was callId with
  | none => simp [Finishes]
  | some status => simp

/-- The result entry of an end is one of the commit's. -/
theorem toolEnds_entry {ended : ToolEnd} (isIn : ended ∈ toolEnds entries was now) {entry : EntryRecord}
    (has : ended.entry = some entry) : entry ∈ entries := by
  have found (slot : ToolSlot) (id : Option EntryId) (found : (endTool entries slot id).entry = some entry) :
      entry ∈ entries := by
    obtain ⟨_, -, found⟩ := Option.bind_eq_some_iff.mp found
    exact List.mem_of_find?_eq_some found
  unfold toolEnds at isIn
  rcases List.mem_append.mp isIn with old | new
  · obtain ⟨previous, -, shows⟩ := List.mem_filterMap.mp old
    unfold slotEnd at shows
    split at shows
    · cases shows
    · split at shows
      · split at shows
        · cases shows
          exact found _ _ has
        · cases shows
      · cases shows
        exact found _ _ has
  · obtain ⟨slot, -, rfl⟩ := List.mem_map.mp new
    exact found _ _ has

/-- **Every end is sent**: before its result entry, or behind the entries. -/
theorem mem_sent :
    event ∈ entryEnds (toolEnds entries was now) entries ++
        ((toolEnds entries was now).filter fun ended => ended.entry.isNone).map ToolEnd.event ↔
      ∃ ended ∈ toolEnds entries was now, ended.event = event := by
  unfold entryEnds
  simp only [mem_append, mem_flatMap, mem_map, mem_filter, decide_eq_true_eq]
  constructor
  · rintro (⟨entry, -, ended, ⟨isIn, -⟩, rfl⟩ | ⟨ended, ⟨isIn, -⟩, rfl⟩)
    · exact ⟨ended, isIn, rfl⟩
    · exact ⟨ended, isIn, rfl⟩
  · rintro ⟨ended, isIn, rfl⟩
    cases has : ended.entry with
    | none => exact .inr ⟨ended, ⟨isIn, by rw [has]; rfl⟩, rfl⟩
    | some entry =>
      exact .inl ⟨entry, toolEnds_entry isIn has, ended, ⟨isIn, by rw [has]; rfl⟩, rfl⟩

/-- A nested end is of a nested slot that is done, or is gone. -/
theorem nestedEnds_slot (before : Distinct was) (after : Distinct now)
    {nestedResults : List (TaskId × Json Unit)} (isIn : event ∈ nestedEnds nestedResults was now) :
    ∃ slot, (slot ∈ now.nestedTools ∧ slot.status = .done ∨
        slot ∈ was.nestedTools ∧ nestedOf now slot.taskId = none) ∧
      event = endNested nestedResults slot := by
  unfold nestedEnds at isIn
  rw [values_mapOf before.nested] at isIn
  rcases List.mem_append.mp isIn with old | new
  · obtain ⟨previous, listed, shows⟩ := List.mem_filterMap.mp old
    rw [mem_reverse] at listed
    unfold nestedSlotEnd at shows
    split at shows
    · cases shows
    · split at shows
      · rename_i slot found
        split at shows
        · rename_i done
          cases shows
          exact ⟨slot, .inl ⟨((nestedOf_iff after).mp found).1, done⟩, rfl⟩
        · cases shows
      · rename_i gone
        cases shows
        exact ⟨previous, .inr ⟨listed, gone⟩, rfl⟩
  · obtain ⟨slot, kept, rfl⟩ := List.mem_map.mp new
    obtain ⟨listed, ends⟩ := List.mem_filter.mp kept
    exact ⟨slot, .inl ⟨List.mem_reverse.mp listed, (of_decide_eq_true ends).1⟩, rfl⟩

end Commits

end TianGong.Gibraltar
