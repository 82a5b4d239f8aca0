/-
**Model context of a conversation.**

`context.ts`: the active transcript of a conversation and the messages a model is sent, derived from the
visible entries between a head marker's head and a cut-off (`deriveRange`), or by extending an earlier
range (`extendRange`).

A message is compared by identity in one place, so it is carried with the slot of the entry it was read
from (`Sent`); a message that is made up for a missing tool result has no slot. Freezing, and copying the
arrays of a view, have no part in what a view holds.
-/

import TianGong.Gibraltar.Entries

namespace TianGong.Gibraltar

/-- Where a message object was read from: an entry, the edit of it that carries the message or none, and
the position. -/
structure Slot where
  entry : EntryId
  edit : Option Nat
  index : Nat
  deriving DecidableEq

/-- A message object. -/
structure Sent where
  slot : Option Slot
  message : Message

namespace Sent

def isSystem (m : Sent) : Bool := m.message.isSystem
def isUser (m : Sent) : Bool := m.message.isUser
def isAssistant (m : Sent) : Bool := m.message.isAssistant

end Sent

/-- The objects of a list of messages of an entry. -/
def sentFrom (entry : EntryId) (edit : Option Nat) (messages : List Message) : List Sent :=
  messages.mapIdx fun index message => ⟨some ⟨entry, edit, index⟩, message⟩

/-- The objects of an entry's own messages. -/
def EntryRecord.sent (e : EntryRecord) : List Sent := sentFrom e.id none (e.model.getD [])

/-- An edit as a read finds it: nothing is left of its target, or these messages are. -/
inductive FoundEdit where
  | omit
  | replace (messages : List Sent)

/-- The edits of an entry, with their targets. -/
def EntryRecord.foundEdits (e : EntryRecord) : List (EntryId × FoundEdit) :=
  (e.edits.getD []).mapIdx fun index edit =>
    (edit.target,
      match edit.action with
      | .omit => .omit
      | .replace messages => .replace (sentFrom e.id (some index) messages))

/-- Where a context starts and ends. -/
structure ContextBounds where
  head : Option HeadMarker
  tail : EntryId

structure ContextView where
  head : Option HeadMarker
  entries : List EntryRecord
  contributions : List (List Sent)
  messages : List Sent

/-- A baseline's system message, `null` when the range cannot have one, or `undefined` while a later
entry may be one. -/
inductive Baseline where
  | undefined
  | null
  | message (message : Sent)

structure ContextRange where
  bounds : ContextBounds
  entries : List EntryRecord
  view : ContextView
  edited : List EntryId
  settled : List Sent
  open_ : List Sent
  baseline : Baseline

/-! ### Parts of a view -/

/-- The edits of a range by target, the newest last written. -/
def editsOf (entries : List EntryRecord) : List (EntryId × FoundEdit) :=
  (entries.flatMap EntryRecord.foundEdits).foldl (fun edits e => Assoc.set e.1 e.2 edits) []

def selectActive (head : Option HeadMarker) (range : List EntryRecord) : List EntryRecord :=
  match head with
  | none => range
  | some marker => marker.entry :: range.filter fun entry => entry.head.isNone

/-- `EXCLUDED_STOP_REASONS`. -/
def excluded (message : Message) : Bool :=
  match message with
  | .assistant _ stopReason _ => [.aborted, .error, .deferred].contains stopReason
  | _ => false

def contribute (entry : EntryRecord) (edit : Option FoundEdit) : List Sent :=
  match edit with
  | some .omit => []
  | some (.replace messages) => messages.filter fun m => !excluded m.message
  | none => entry.sent.filter fun m => !excluded m.message

def MISSING_RESULT_TEXT : Text :=
  text "Tool result unavailable: history ends before this call completed."

def missingResult (call : ToolCall) (timestamp : JsNumber) : Sent where
  slot := none
  message := .toolResult call.id call.name
    (.array () [.object () [(text "type", .string (text "text")),
      (text "text", .string MISSING_RESULT_TEXT)]]) true
    (some (.object () [(text "reason", .string (text "missing_result"))])) timestamp

def toolCalls (content : List Content) : List ToolCall :=
  content.filterMap fun
    | .toolCall call => some call
    | .other _ => none

/-- Whether a message is the result of a call. -/
def answers (call : ToolCall) (m : Sent) : Bool :=
  match m.message with
  | .toolResult toolCallId _ _ _ _ _ => toolCallId == call.id
  | _ => false

/-- The result of a call among the messages before the next assistant message, or a made up one. -/
def resultOf (timestamp : JsNumber) (later : List Sent) (call : ToolCall) : Sent :=
  ((later.takeWhile fun m => !m.isAssistant).find? (answers call)).getD
    (missingResult call timestamp)

def orderToolResults : List Sent → List Sent
  | [] => []
  | m :: later =>
    match m.message with
    | .toolResult _ _ _ _ _ _ => orderToolResults later
    | .assistant content _ timestamp =>
      m :: (toolCalls content).map (resultOf timestamp later) ++ orderToolResults later
    | _ => m :: orderToolResults later

def findLastIndex (p : Sent → Bool) : List Sent → Option Nat
  | [] => none
  | m :: later =>
    match findLastIndex p later with
    | some index => some (index + 1)
    | none => if p m then some 0 else none

def settle (settled open_ : List Sent) : List Sent × List Sent :=
  match findLastIndex Sent.isAssistant open_ with
  | none | some 0 => (settled, open_)
  | some last => (settled ++ orderToolResults (open_.take last), open_.drop last)

def SYSTEM_ENTRY : Text := text "tg.system"

def carriesSystemMessage (entry : EntryRecord) : Bool :=
  (entry.model.getD []).any Message.isSystem || (entry.edits.getD []).any fun edit =>
      match edit.action with
      | .omit => false
      | .replace messages => messages.any Message.isSystem

def findBaseline (head : Option HeadMarker) : List EntryRecord → Baseline
  | [] => .undefined
  | entry :: later =>
    if head.any fun marker => decide (entry.id ≤ marker.entry.id) then findBaseline head later
    else if entry.kind = SYSTEM_ENTRY then
      match entry.sent.find? Sent.isSystem with
      | some m => .message m
      | none => .null
    else if head.isNone && carriesSystemMessage entry then .null
    else findBaseline head later

/-- Whether a message object is the baseline's. -/
def Baseline.is (baseline : Baseline) (m : Sent) : Bool :=
  match baseline with
  | .message b => b.slot == m.slot
  | _ => false

def leadWithSystem (messages : List Sent) (baseline : Baseline) : List Sent :=
  match messages.findIdx? Sent.isSystem with
  | none | some 0 => messages
  | some (index + 1) =>
    match messages[index + 1]? with
    | none => messages
    | some system =>
      if !baseline.is system && (messages.take (index + 1)).any (fun m => !m.isUser) then messages
      else system :: messages.take (index + 1) ++ messages.drop (index + 2)

/-! ### Ranges -/

def deriveRange (bounds : ContextBounds) (entries : List EntryRecord) : ContextRange :=
  let edits := editsOf entries
  let active := selectActive bounds.head entries
  let contributions := active.map fun entry => contribute entry (Assoc.get entry.id edits)
  let parts := settle [] contributions.flatten
  let baseline := findBaseline bounds.head active
  { bounds := bounds
    entries := entries
    view :=
      { head := bounds.head
        entries := active
        contributions := contributions
        messages := leadWithSystem (parts.1 ++ orderToolResults parts.2) baseline }
    edited := Assoc.keys edits
    settled := parts.1
    open_ := parts.2
    baseline := baseline }

def extendRange (previous : ContextRange) (bounds : ContextBounds) (added : List EntryRecord) :
    ContextRange :=
  let entries := previous.entries ++ added
  if added.any fun entry =>
      entry.edits.isSome || entry.head.isSome || previous.edited.contains entry.id then
    deriveRange bounds entries
  else
    let contributions := added.map fun entry => contribute entry none
    let parts := settle previous.settled (previous.open_ ++ contributions.flatten)
    let baseline :=
      match previous.baseline with
      | .undefined => findBaseline bounds.head added
      | found => found
    { bounds := bounds
      entries := entries
      view :=
        { head := bounds.head
          entries := previous.view.entries ++ added
          contributions := previous.view.contributions ++ contributions
          messages := leadWithSystem (parts.1 ++ orderToolResults parts.2) baseline }
      edited := previous.edited
      settled := parts.1
      open_ := parts.2
      baseline := baseline }

/-! ### Reads -/

/-- The one failure of a read. -/
inductive ContextError where
  | notVisible (at_ : EntryId)

def emptyView : ContextView := ⟨none, [], [], []⟩

def captureContextBounds (h : History) (at_ : Option EntryId) :
    Except ContextError (Option ContextBounds) :=
  match at_ with
  | none =>
    match (h.scanEntries none none 1 none).1.head? with
    | none => .ok none
    | some newest => .ok (some ⟨findLatestHeadMarker (some newest.id) h.lineage, newest.id⟩)
  | some id =>
    match h.entry id with
    | none => .error (.notVisible id)
    | some _ => .ok (some ⟨findLatestHeadMarker (some id) h.lineage, id⟩)

/-- The entries of `rangeQuery(bounds)`. -/
def scanBounds (h : History) (bounds : ContextBounds) : List EntryRecord :=
  h.scanRange (bounds.head.map HeadMarker.head) (some bounds.tail)

/-- `readContext`, with `deriveContext`. -/
def readContext (h : History) (at_ : Option EntryId) : Except ContextError ContextView :=
  (captureContextBounds h at_).map fun
    | none => emptyView
    | some bounds => (deriveRange bounds (scanBounds h bounds)).view

/-- The identifier of a marker. -/
def markerId (head : Option HeadMarker) : Option EntryId := head.map fun marker => marker.entry.id

/-- The range of `readContextFrom`. -/
def rangeFrom (h : History) (previous : Option ContextRange) (bounds : ContextBounds) : ContextRange :=
  match previous with
  | none => deriveRange bounds (scanBounds h bounds)
  | some previous =>
    if markerId previous.bounds.head ≠ markerId bounds.head then
      deriveRange bounds (scanBounds h bounds)
    else if bounds.tail = previous.bounds.tail then previous
    else if bounds.tail < previous.bounds.tail then
      deriveRange bounds (previous.entries.filter fun entry => decide (entry.id ≤ bounds.tail))
    else
      extendRange previous bounds (h.scanRange (some (previous.bounds.tail + 1)) (some bounds.tail))

/-- `readContextFrom`: the view, and the range for the next read. -/
def readContextFrom (h : History) (at_ : Option EntryId) (previous : Option ContextRange) :
    Except ContextError (ContextView × Option ContextRange) :=
  (captureContextBounds h at_).map fun
    | none => (emptyView, none)
    | some bounds => ((rangeFrom h previous bounds).view, some (rangeFrom h previous bounds))

end TianGong.Gibraltar
