/-
**Trackers: changes, preparations and adoption.**

The life cycle of `tracker.ts`. A change and a replacement each have an overlay context; `prepare`
turns it into a preparation, and `adopt` makes its value the tracker's value. The source's objects are
entries of four lists here (trackers, contexts, changes, preparations), named by their positions, and
nothing is ever removed.

What the draft does, and what it emits, is given by `Drafts`: an edit changes an overlay and may throw,
and so may the emission. The life cycle does not depend on it. Values are compared by identity, and
weak references are references: a collected context has no holder left.
-/

import TianGong.Chord.Op
import TianGong.Lib.History

namespace TianGong.Chord

/-! ### Contexts -/

inductive Status where
  | open | prepared | consumed | aborted | stale
  deriving DecidableEq

/-- What a context holds until it is cleared: the overlay, the root and the base value. -/
structure Live (V O : Type) where
  overlay : O
  root : V
  baseValue : V

/-- `OverlayContext`. The context is released when there is nothing live in it. -/
structure OverlayContext (V O : Type) where
  owner : Nat
  baseRevision : Nat
  status : Status
  replacement : Bool
  live : Option (Live V O)

structure PreparedImpl (V : Type) where
  context : Nat
  value : V
  base : V
  ops : List (Op V)

/-- `ChangeImpl`. The status cell of a context is named by the context. -/
structure ChangeImpl where
  context : Option Nat
  preparedStatus : Option Nat
  settled : Bool

structure TrackerImpl (V : Type) where
  value : V
  revision : Nat
  contexts : List Nat

/-- All objects there are. -/
structure Trackers (V O : Type) where
  trackers : List (TrackerImpl V)
  contexts : List (OverlayContext V O)
  changes : List ChangeImpl
  preparations : List (PreparedImpl V)

/-- What the tracker throws. -/
inductive TrackerError where
  /-- A call on an object there is not. -/
  | undefined
  | changeSettled
  | overlaySettled
  | readOnly
  | differentTracker
  | used
  | aborted
  | stale
  | notReady
  /-- What the draft or its emission throws. -/
  | draft (e : DeltaError)
  deriving DecidableEq

/-- **What drafts do**: values of type `V`, overlays `O` and edits `E`. -/
structure Drafts (V O E : Type) where
  /-- A fresh overlay over a root. -/
  createNode : V → O
  /-- An edit, which may throw half way. -/
  edit : E → O → Except DeltaError Unit × O
  /-- Whether anything is dirty. -/
  dirty : O → Bool
  emitOperations : O → Except DeltaError (List (Op V))
  /-- The value of a batch, from the base (`materializeOperations`) or the overlay (`cloneNode`). -/
  materialize : V → O → List (Op V) → Except DeltaError V
  equalTrustedJson : V → V → Bool

/-- The life cycle's actions. -/
inductive Action (V E : Type) where
  | track (initial : V)
  | beginChange (tracker : Nat)
  /-- Through the state of a change, or any handle read from it. -/
  | edit (context : Nat) (e : E)
  | prepare (change : Nat)
  | prepareReplace (tracker : Nat) (value : V)
  | abortChange (change : Nat)
  | abortPrepared (prepared : Nat)
  | adopt (tracker prepared : Nat)

/-- What an action returns. -/
inductive Returned where
  | nothing
  | tracker (id : Nat)
  | change (id : Nat)
  | prepared (id : Nat)
  deriving DecidableEq

variable {V O E : Type}

/-! ### Contexts of a state -/

def isSettledContext (context : OverlayContext V O) : Bool :=
  context.live.isNone || context.status = .consumed || context.status = .aborted ||
    context.status = .stale

/-- `assertReadable`, with what a readable context holds. -/
def assertReadable (context : OverlayContext V O) : Except TrackerError (Live V O) :=
  if isSettledContext context then .error .overlaySettled
  else match context.live with
    | some live => .ok live
    | none => .error .overlaySettled

def assertWritable (context : OverlayContext V O) : Except TrackerError (Live V O) := do
  let live ← assertReadable context
  if context.status ≠ .open then throw .readOnly
  return live

namespace Trackers

variable (s : Trackers V O)

/-- Change a context in place. -/
def modifyContext (c : Nat) (f : OverlayContext V O → OverlayContext V O) : Trackers V O :=
  { s with contexts := s.contexts.modify c f }

def setStatus (c : Nat) (status : Status) : Trackers V O :=
  s.modifyContext c fun context => { context with status }

/-- `releaseContext`: out of the registry of its owner. -/
def releaseContext (c : Nat) : Trackers V O :=
  match s.contexts[c]? with
  | none => s
  | some context => { s with
      trackers := s.trackers.modify context.owner fun tracker =>
        { tracker with contexts := tracker.contexts.erase c } }

def releaseOverlayReferences (c : Nat) : Trackers V O :=
  (s.releaseContext c).modifyContext c fun context => { context with live := none }

/-- `clearContext`. It also takes the nodes apart, which nobody can reach any more. -/
def clearContext (c : Nat) : Trackers V O :=
  (s.releaseContext c).modifyContext c fun context => { context with live := none }

def abortContext (c : Nat) : Trackers V O :=
  match s.contexts[c]? with
  | none => s
  | some context =>
    if context.status = .aborted ∨ context.status = .consumed ∨ context.status = .stale then s
    else (s.setStatus c .aborted).clearContext c

/-- `createContext`, and `register` at its owner. -/
def createContext (drafts : Drafts V O E) (owner baseRevision : Nat) (root : V) (replacement : Bool)
    (base : V) : Trackers V O :=
  { s with
    contexts := s.contexts ++
      [⟨owner, baseRevision, .open, replacement, some ⟨drafts.createNode root, root, base⟩⟩]
    trackers := s.trackers.modify owner fun tracker =>
      { tracker with contexts := tracker.contexts ++ [s.contexts.length] } }

def setChange (c : Nat) (change : ChangeImpl) : Trackers V O :=
  { s with changes := s.changes.set c change }

/-! ### Preparing -/

end Trackers

/-- `ensureOperations` for a replacement: nothing when the base, still current, equals it. -/
def replacementOperations (drafts : Drafts V O E) (replacementBase : Option V) (root : V) :
    List (Op V) :=
  match replacementBase with
  | some base => if drafts.equalTrustedJson base root then [] else [.r root]
  | none => [.r root]

/-- The value of `materializePrepared`. -/
def materializeValue (drafts : Drafts V O E) (live : Live V O) (operations : List (Op V)) :
    Except TrackerError V :=
  if operations.length = 0 then .ok live.baseValue
  else match drafts.materialize live.baseValue live.overlay operations with
    | .ok value => .ok value
    | .error e => .error (.draft e)

/-- The `try` of `prepare`: the operations and the value. -/
def preparedParts (drafts : Drafts V O E) (live : Live V O) :
    Except TrackerError (List (Op V) × V) := do
  let operations ←
    if drafts.dirty live.overlay then
      match drafts.emitOperations live.overlay with
      | .ok operations => .ok operations
      | .error e => .error (.draft e)
    else .ok []
  let value ← materializeValue drafts live operations
  return (operations, value)

namespace Trackers

variable (s : Trackers V O)

/-- `materializePrepared`: the preparation takes the base, then the context is cleared. -/
def addPrepared (c : Nat) (live : Live V O) (parts : List (Op V) × V) : Trackers V O :=
  clearContext { s with
    preparations := s.preparations ++ [⟨c, parts.2, live.baseValue, parts.1⟩] } c

/-! ### The calls -/

abbrev Call (V O : Type) := Except TrackerError Returned × Trackers V O

def beginChange (drafts : Drafts V O E) (t : Nat) : Call V O :=
  match s.trackers[t]? with
  | none => (.error .undefined, s)
  | some tracker =>
    let created := s.createContext drafts t tracker.revision tracker.value false tracker.value
    (.ok (.change s.changes.length),
      { created with changes := s.changes ++ [⟨some s.contexts.length, none, false⟩] })

/-- A write through a draft or one of its handles. -/
def edit (drafts : Drafts V O E) (c : Nat) (e : E) : Call V O :=
  match s.contexts[c]? with
  | none => (.error .undefined, s)
  | some context =>
    match assertWritable context with
    | .error error => (.error error, s)
    | .ok live =>
      let result := drafts.edit e live.overlay
      let edited := s.modifyContext c fun context =>
        { context with live := some { live with overlay := result.2 } }
      match result.1 with
      | .ok _ => (.ok .nothing, edited)
      | .error error => (.error (.draft error), edited)

def prepare (drafts : Drafts V O E) (i : Nat) : Call V O :=
  match s.changes[i]? with
  | none => (.error .undefined, s)
  | some change =>
    if change.settled then (.error .changeSettled, s)
    else match change.context with
      | none => (.error .undefined, s)
      | some c =>
        match s.contexts[c]? with
        | none => (.error .undefined, s)
        | some context =>
          match assertWritable context with
          | .error error => (.error error, s)
          | .ok live =>
            let s := s.setStatus c .prepared
            match preparedParts drafts live with
            | .error error =>
              (.error error, ((s.setStatus c .aborted).clearContext c).setChange i
                { change with context := none, settled := true })
            | .ok parts =>
              (.ok (.prepared s.preparations.length), (s.addPrepared c live parts).setChange i
                { context := none, preparedStatus := some c, settled := true })

def prepareReplace (drafts : Drafts V O E) (t : Nat) (value : V) : Call V O :=
  match s.trackers[t]? with
  | none => (.error .undefined, s)
  | some tracker =>
    let c := s.contexts.length
    let s := (s.createContext drafts t tracker.revision value true tracker.value).setStatus c
      .prepared
    let live : Live V O := ⟨drafts.createNode value, value, tracker.value⟩
    -- The context is of this very revision, so `replacementBase` is the tracker's value.
    let operations := replacementOperations drafts (some tracker.value) value
    match materializeValue drafts live operations with
    | .error error => (.error error, (s.setStatus c .aborted).clearContext c)
    | .ok result =>
      (.ok (.prepared s.preparations.length), s.addPrepared c live (operations, result))

def abortChange (i : Nat) : Call V O :=
  match s.changes[i]? with
  | none => (.error .undefined, s)
  | some change =>
    if change.settled then
      let s : Trackers V O := match change.preparedStatus with
        | some c =>
          match s.contexts[c]? with
          | some context => if context.status = .prepared then s.setStatus c .aborted else s
          | none => s
        | none => s
      (.ok .nothing, s.setChange i { change with preparedStatus := none })
    else
      let s : Trackers V O := match change.context with
        | some c => s.abortContext c
        | none => s
      (.ok .nothing, s.setChange i { change with context := none, settled := true })

def abortPrepared (p : Nat) : Call V O :=
  match s.preparations[p]? with
  | none => (.error .undefined, s)
  | some prepared => (.ok .nothing, s.abortContext prepared.context)

/-- One turn of `invalidate`. -/
def invalidateOne (winner : Nat) (c : Nat) : Trackers V O :=
  if c = winner then s
  else
    let s : Trackers V O := match s.contexts[c]? with
      | some context =>
        if context.status = .open ∨ context.status = .prepared then s.setStatus c .stale else s
      | none => s
    s.releaseOverlayReferences c

/-- `invalidate`: every other registered context goes stale, and the registry is emptied. -/
def invalidate (t winner : Nat) : Trackers V O :=
  let registered := ((s.trackers[t]?).map TrackerImpl.contexts).getD []
  let s := registered.foldl (fun s c => s.invalidateOne winner c) s
  { s with trackers := s.trackers.modify t fun tracker => { tracker with contexts := [] } }

def adopt [DecidableEq V] (t p : Nat) : Call V O :=
  match s.trackers[t]? with
  | none => (.error .undefined, s)
  | some tracker =>
    match s.preparations[p]? with
    | none => (.error .differentTracker, s)
    | some prepared =>
      match s.contexts[prepared.context]? with
      | none => (.error .differentTracker, s)
      | some context =>
        if context.owner ≠ t then (.error .differentTracker, s)
        else match context.status with
          | .consumed => (.error .used, s)
          | .aborted => (.error .aborted, s)
          | .stale => (.error .stale, s)
          | .open => (.error .notReady, s)
          | .prepared =>
            if context.baseRevision ≠ tracker.revision then
              (.error .stale, (s.setStatus prepared.context .stale).clearContext prepared.context)
            else if tracker.value ≠ prepared.base then
              (.error .stale, s.setStatus prepared.context .stale)
            else
              let s := { s with trackers := s.trackers.modify t fun tracker =>
                { tracker with value := prepared.value, revision := tracker.revision + 1 } }
              (.ok .nothing, (s.setStatus prepared.context .consumed).invalidate t prepared.context)

/-- One action. -/
def step [DecidableEq V] (drafts : Drafts V O E) : Action V E → Call V O
  | .track initial =>
    (.ok (.tracker s.trackers.length), { s with trackers := s.trackers ++ [⟨initial, 0, []⟩] })
  | .beginChange t => s.beginChange drafts t
  | .edit c e => s.edit drafts c e
  | .prepare i => s.prepare drafts i
  | .prepareReplace t value => s.prepareReplace drafts t value
  | .abortChange i => s.abortChange i
  | .abortPrepared p => s.abortPrepared p
  | .adopt t p => s.adopt t p

end Trackers

/-- Nothing has been tracked yet. -/
def Trackers.initial (V O : Type) : Trackers V O := ⟨[], [], [], []⟩

end TianGong.Chord
