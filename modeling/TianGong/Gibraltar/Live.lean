/-
**The live state of a conversation.**

`tg.live` as `live.ts` declares it: the run, the generation, the slots of the tool round and of the nested
calls, and the compactions. A list that is absent reads as an empty one.

* `Ref`: an object of a view with its identity.

Of a partial answer only its usage and its blocks are told apart.
-/

import TianGong.Gibraltar.Entries

namespace TianGong.Gibraltar

abbrev TaskId := Nat

abbrev SubmissionId := Nat

abbrev ConversationId := Nat

/-- An object of a view. Two of them are `===` when they have one identity. -/
structure Ref (Value : Type) where
  addr : Nat
  value : Value

/-- `===` of JSON values. -/
def identical : Json Nat → Json Nat → Bool
  | .null, .null => true
  | .bool a, .bool b => a == b
  | .number a, .number b => decide (a = b)
  | .string a, .string b => decide (a = b)
  | .array a _, .array b _ => a == b
  | .object a _, .object b _ => a == b
  | _, _ => false

variable {Value : Type}

/-- `===` of values that may be absent. -/
def identicalOption (same : Value → Value → Bool) : Option Value → Option Value → Bool
  | none, none => true
  | some a, some b => same a b
  | _, _ => false

/-- `===` of objects that may be absent. -/
def sameRef (a b : Option (Ref Value)) : Bool :=
  identicalOption (fun a b => a.addr == b.addr) a b

/-! ### Slots -/

inductive SlotStatus where
  | pending | running | done
  deriving DecidableEq

/-- What a running tool call publishes. -/
structure SlotProgress where
  callId : Text
  name : Text
  status : SlotStatus
  output : Option Text
  details : Option (Json Nat)
  diagnostics : Option (Ref (List (Json Unit)))

/-- A tool call of the current round. -/
structure ToolSlot extends SlotProgress where
  taskId : Option TaskId
  entry : Option EntryId

/-- A call that a running tool made. -/
structure NestedToolSlot extends SlotProgress where
  parentCallId : Text
  parentTaskId : TaskId
  taskId : TaskId
  arguments : Json Unit

/-! ### The state -/

structure Run where
  taskId : TaskId
  inputs : List SubmissionId

structure AssistantMessage where
  usage : Json Unit
  content : List (Json Unit)

structure Retry where
  at_ : JsNumber
  error : Text

/-- The current attempt. -/
structure Generation where
  attempt : Nat
  message : Option (Ref AssistantMessage)
  retry : Option Retry
  /-- When a deferred response is polled. -/
  deferred : Option JsNumber

structure CompactionStatus where
  taskId : TaskId
  reason : Text
  blocking : Bool

structure CompactionFailure where
  taskId : TaskId
  reason : Text
  error : Text

structure LiveState where
  run : Option Run
  generation : Option Generation
  tools : List ToolSlot
  nestedTools : List NestedToolSlot
  compactions : List CompactionStatus
  compactionFailure : Option CompactionFailure

/-- `{}`, and what `LiveDoc` starts with. -/
def LiveState.initial : LiveState := ⟨none, none, [], [], [], none⟩

namespace LiveState

/-- The partial of the answer that streams. -/
def streaming (live : LiveState) : Option (Ref AssistantMessage) :=
  live.generation.bind Generation.message

/-- `run?.inputs[0]`. -/
def firstInput (live : LiveState) : Option SubmissionId := live.run.bind fun run => run.inputs.head?

end LiveState

end TianGong.Gibraltar
