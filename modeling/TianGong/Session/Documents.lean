/-
**Documents: `documents.ts`.**

A document is a JSON object at an address: a kind, an owner and, for a member of a family, a key. A
definition gives the version its values are written in and how an older value is migrated. A value
is JSON content, and `replay` is what batches of operations make of it.

* `Definition`, `DocumentAddress`, `DocumentCreate`, `DocumentRecord`: what names a document.
* `checkRecordScope`, `checkRecordVersion`: what a typed access refuses.
* `materializeDocument`: the value a typed access reads.
-/

import TianGong.Chord.Appliers

namespace TianGong.Session

open TianGong.Lib (Agrees)
open TianGong.Chord (Op transformAll transformAll_append applyImmutableBatches loadAll)

/-- A JSON value, by content. -/
abbrev JsonValue := Json Unit

abbrev DocumentId := Nat
abbrev ConversationId := Nat
abbrev TaskId := Nat
abbrev Seq := Nat

/-- What batches of operations make of a value, if each has an effect: `applyImmutableBatches`. -/
def replay (value : JsonValue) (batches : List (List (Op JsonValue))) : Option JsonValue :=
  transformAll batches.flatten value

theorem replay_append (value : JsonValue) (first second : List (List (Op JsonValue))) :
    replay value (first ++ second) = replay value first >>= fun v => replay v second := by
  rw [replay, List.flatten_append, transformAll_append]
  rfl

/-! ### Addresses and records -/

/-- Where a document lives. -/
inductive ScopeKind
  | session
  | conversation
  | task
deriving DecidableEq

/-- The owner of a document. -/
inductive Scope
  | session
  | conversation (id : ConversationId)
  | task (id : TaskId)
deriving DecidableEq

def Scope.kind : Scope → ScopeKind
  | .session => .session
  | .conversation _ => .conversation
  | .task _ => .task

inductive DocHistory
  | latest
  | rewindable
deriving DecidableEq

inductive ForkPolicy
  | asOf
  | current
  | initial
deriving DecidableEq

/-- A logical address. `addressId` gives different addresses different texts. -/
structure DocumentAddress where
  kind : Text
  scope : Scope
  key : Option Text
deriving DecidableEq

/-- The create record of an incarnation. -/
structure DocumentCreate where
  id : DocumentId
  address : DocumentAddress
  history : Option DocHistory
  fork : Option ForkPolicy
deriving DecidableEq

/-- A committed incarnation. -/
structure DocumentRecord extends DocumentCreate where
  createdAt : Seq
  retiredAt : Option Seq
deriving DecidableEq

/-! ### Typed access -/

end TianGong.Session
