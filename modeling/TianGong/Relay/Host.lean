/-
**A host that serves and relays the holds of its links.**

`Connection`, `RelayRef`, `RelayCall` and `relayCall` (`connection.ts`), with `relay` and `#resolve`
(`host.ts`): a link holds objects of this host, or of a host further down, which a relay holds for it
over another link; calls go through the relay. What is written after an `await` runs later, so it is a
step of its own.

* `onHold`, `dropServed`: a hold of a link begins and ends.
* `onCall`, `resume`, `answer`: a call frame, the part of `relayCall` after its race, and the result.

A principal is `none` where the value is `null`, which `??` replaces. State streams and their flow
control, roots and leases are not modelled here.
-/

import TianGong.Chord.Json

namespace TianGong.Relay

open Function (update)

/-- A JSON value. -/
abbrev JsonValue := Json Unit

/-! ### Frames -/

abbrev ConnId := Nat
abbrev RelayId := Nat
abbrev TaskId := Nat

structure WireError where
  code : Text
  message : Text
  reason : Option Text
  deriving DecidableEq

def chordError (code message : String) : WireError := ⟨text code, text message, none⟩

/-- The outcome of a call: its value, if any, or an error. -/
inductive Outcome where
  | value (value : Option JsonValue)
  | error (error : WireError)

structure RootRef where
  rootId : Text
  codeVersion : Nat

variable {P : Type}

/-- A `hold` frame. -/
structure HoldFrame (P : Type) where
  id : Nat
  /-- `at` -/
  host : Text
  token : JsonValue
  input : JsonValue
  principal : Option P
  origin : Option Text
  /-- Unless it says `state: false`. -/
  state : Bool
  again : Bool

/-- A `call` frame. -/
structure CallFrame where
  id : Nat
  hold : Nat
  member : Text
  args : Option JsonValue
  root : Option RootRef

/-- The frames that a host sends. -/
inductive Frame (P : Type) where
  | hold (frame : HoldFrame P)
  | release (id : Nat)
  | gone (id : Nat) (error : WireError)
  | call (frame : CallFrame)
  | cancel (id : Nat)
  | result (id : Nat) (outcome : Outcome)
  | sub (hold : Nat)
  | unsub (hold : Nat)
  | resync (hold : Nat) (m : Text)

/-! ### The state -/

/-- `Served`: a hold of a link. -/
inductive Served (P : Type) where
  | local (principal : Option P) (origin : Option Text)
  | relay (relay : RelayId)

structure Connection (P : Type) where
  /-- `name`, `peer` where there is none. -/
  name : Text
  /-- `open` -/
  isOpen : Bool
  /-- `role === "upstream"` -/
  upstream : Bool
  /-- `peer.kind === "client"` -/
  client : Bool
  originId : Option Text
  principal : Option P
  generation : Nat
  maxCalls : Option Nat
  nextId : Nat
  served : List (Nat × Served P)
  incoming : List (Nat × TaskId)
  relayedRefs : Nat → Option RelayId
  relayedCalls : Nat → Option TaskId

/-- How far `#resolve` and `relay` have come for a relay. -/
inductive Routing where
  /-- Awaits `route.authorize`. -/
  | authorizing
  /-- Awaits `route.resolve`. -/
  | resolving
  /-- Awaits `route.authorize` once more. -/
  | reauthorizing
  /-- Awaits `whenSynced` of the connection. -/
  | syncing (down : ConnId)
  /-- Awaits the return of `#resolve`. -/
  | returning (down : ConnId)
  /-- `relay` rejects; its `catch` has not run. -/
  | failing (error : WireError)
  | done
  deriving DecidableEq

structure RelayRef (P : Type) where
  origin : ConnId
  frame : HoldFrame P
  principal : Option P
  originTag : Option Text
  generation : Nat
  down : Option ConnId
  downId : Nat
  closed : Bool
  stateWanted : Bool
  calls : List (Nat × TaskId)
  waiters : List TaskId
  routing : Routing

/-- What became of a call frame. -/
inductive Phase where
  /-- A method of an object here runs. -/
  | running
  /-- `relayCall` awaits the relay, or the end of its signal. -/
  | waiting
  /-- The relay is ready; what follows the race has not run. -/
  | ready
  /-- A `RelayCall` that is not settled. -/
  | forwarded
  | settled (outcome : Outcome)

/-- A call frame of a link, and its `relayCall` if the hold is relayed. -/
structure Task where
  origin : ConnId
  relay : Option RelayId
  frame : CallFrame
  /-- The root that it runs in. -/
  root : RootRef
  phase : Phase
  /-- `signal.aborted` -/
  aborted : Bool
  /-- The id of its frame downstream, once it was sent. -/
  sentAs : Option Nat
  /-- Its relay was `current` then. -/
  sentCurrent : Bool
  /-- Its result was sent. -/
  answered : Bool
  /-- Its id is no longer in use on its link: the `finally` after the result. -/
  forgotten : Bool

/-- What a host does for a link, and as whom. -/
inductive Act (P : Type) where
  /-- `host.acquire` for a hold: the principal of the object. -/
  | acquired (hold : Nat) (principal : Option P)
  /-- A call of a hold runs: the principal of its root. -/
  | ran (hold : Nat) (principal : Option P)
  /-- A hold is forwarded. -/
  | forwarded (hold : Nat) (principal : Option P)

/-- `HostImpl`, with its connections. -/
structure Host (P : Type) where
  name : Text
  /-- `self` -/
  principal : Option P
  conns : ConnId → Connection P
  connCount : Nat
  relays : RelayId → RelayRef P
  relayCount : Nat
  tasks : TaskId → Task
  taskCount : Nat
  /-- The frames sent, with their links. -/
  sent : List (ConnId × Frame P)
  /-- The results and gone holds that links announced. -/
  received : List (ConnId × Frame P)
  /-- The call frames of links, by their ids. -/
  called : List (ConnId × Nat)
  /-- The times `route.authorize` said yes: for whom and what, and the link's generation then. -/
  granted : List (ConnId × Option P × Text × Nat)
  /-- What was done for links. -/
  acts : List (ConnId × Act P)

namespace Host

variable (s : Host P)

/-! ### Parts -/

def setConn (c : ConnId) (conn : Connection P) : Host P := { s with conns := update s.conns c conn }

def setRelay (r : RelayId) (relay : RelayRef P) : Host P :=
  { s with relays := update s.relays r relay }

def setTask (t : TaskId) (task : Task) : Host P := { s with tasks := update s.tasks t task }

/-- `send`: a link that is closed drops what it is given. -/
def send (c : ConnId) (frame : Frame P) : Host P :=
  if (s.conns c).isOpen then { s with sent := s.sent ++ [(c, frame)] } else s

def act (c : ConnId) (act : Act P) : Host P := { s with acts := s.acts ++ [(c, act)] }

/-- `current`: still authorized as it was when it arrived. -/
def current (r : RelayId) : Bool :=
  let relay := s.relays r
  !relay.closed && (s.conns relay.origin).isOpen &&
    (s.conns relay.origin).generation == relay.generation

/-- `#principalOf`: only the parent may forward a principal. -/
def principalOf (c : ConnId) (frame : HoldFrame P) : Option P :=
  if (s.conns c).upstream then frame.principal.or (s.conns c).principal
  else (s.conns c).principal

def originOf (c : ConnId) (frame : HoldFrame P) : Option Text :=
  if (s.conns c).upstream then frame.origin else (s.conns c).originId

/-! ### Calls -/

/-- A call settles. Nothing settles twice. -/
def settle (t : TaskId) (outcome : Outcome) : Host P :=
  match (s.tasks t).phase with
  | .settled _ => s
  | _ => s.setTask t { s.tasks t with phase := .settled outcome }

/-- `finish` of a `RelayCall`. -/
def finish (t : TaskId) (outcome : Outcome) : Host P :=
  match (s.tasks t).phase, (s.tasks t).relay with
  | .forwarded, some r =>
    let relay := s.relays r
    let s := s.setRelay r { relay with calls := Assoc.erase (s.tasks t).frame.id relay.calls }
    let s := match relay.down, (s.tasks t).sentAs with
      | some down, some id => s.setConn down
          { s.conns down with relayedCalls := update (s.conns down).relayedCalls id none }
      | _, _ => s
    s.settle t outcome
  | _, _ => s

/-- `cancel` of a `RelayCall`. -/
def cancel (t : TaskId) (error : WireError) (forward : Bool) : Host P :=
  match (s.tasks t).phase, (s.tasks t).relay with
  | .forwarded, some r =>
    let s := match forward, (s.relays r).down, (s.tasks t).sentAs with
      | true, some down, some id => s.send down (.cancel id)
      | _, _, _ => s
    s.finish t (.error error)
  | _, _ => s

/-- `call cancelled` -/
def abortError : WireError := chordError "aborted" "call cancelled"

/-- The signal of a call aborts: `onAbort` while it waits, `onCancel` once it is forwarded. Between
the two nobody listens. -/
def abort (t : TaskId) : Host P :=
  let s := s.setTask t { s.tasks t with aborted := true }
  match (s.tasks t).phase with
  | .waiting => s.settle t (.error abortError)
  | .forwarded => s.cancel t abortError true
  | _ => s

/-! ### Relays -/

/-- The calls that wait for a relay go on. -/
def resolveWaiters (waiters : List TaskId) : Host P :=
  waiters.foldl (fun s t => match (s.tasks t).phase with
    | .waiting => s.setTask t { s.tasks t with phase := .ready }
    | _ => s) s

/-- A relay goes down a link, under the link's next id. -/
def goDown (r : RelayId) (down : ConnId) : Host P :=
  let id := (s.conns down).nextId
  (s.setConn down { s.conns down with
    nextId := id + 1
    relayedRefs := update (s.conns down).relayedRefs id (some r) }).setRelay r
  { s.relays r with down := some down, downId := id, waiters := [] }

/-- `open` of a relay. -/
def openRelay (r : RelayId) (down : ConnId) : Host P :=
  let relay := s.relays r
  if relay.closed then s
  else
    let frame : HoldFrame P := { relay.frame with
      id := (s.conns down).nextId, principal := relay.principal, origin := relay.originTag
      state := relay.stateWanted }
    let s := (s.goDown r down).send down (.hold frame)
    (s.act relay.origin (.forwarded relay.frame.id relay.principal)).resolveWaiters relay.waiters

/-- The calls of a relay are cancelled, downstream as well if `forward` says so. -/
def cancelCalls (r : RelayId) (error : WireError) (forward : Bool) : Host P :=
  ((s.relays r).calls.map Prod.snd).foldl (fun s t => s.cancel t error forward) s

/-- The origin of a relay no longer serves its hold. -/
def unserve (r : RelayId) : Host P :=
  let relay := s.relays r
  let origin := s.conns relay.origin
  match Assoc.get relay.frame.id origin.served with
  | some (.relay _) =>
    s.setConn relay.origin { origin with served := Assoc.erase relay.frame.id origin.served }
  | _ => s

/-- The link down which a relay goes forgets its hold; `release` says that it is still there. -/
def unhold (r : RelayId) (release : Bool) : Host P :=
  let relay := s.relays r
  match relay.down with
  | some down =>
    let s := s.setConn down
      { s.conns down with relayedRefs := update (s.conns down).relayedRefs relay.downId none }
    if release then s.send down (.release relay.downId) else s
  | none => s

/-- The calls that wait for a relay are rejected. -/
def rejectWaiters (r : RelayId) (error : WireError) : Host P :=
  let s := (s.relays r).waiters.foldl (fun s t => s.settle t (.error error)) s
  s.setRelay r { s.relays r with waiters := [] }

/-- `close` of a relay. -/
def closeRelay (r : RelayId) (error : WireError) (releaseDown notify : Bool) : Host P :=
  if (s.relays r).closed then s
  else
    let s := (s.setRelay r { s.relays r with closed := true }).cancelCalls r error releaseDown
    let s := ((s.unserve r).unhold r releaseDown).rejectWaiters r error
    if notify then s.send (s.relays r).origin (.gone (s.relays r).frame.id error) else s

def dropServed (c : ConnId) (id : Nat) (release : Bool) : Host P :=
  match Assoc.get id (s.conns c).served with
  | none => s
  | some served =>
    let s := s.setConn c { s.conns c with served := Assoc.erase id (s.conns c).served }
    match served with
    | .relay r => s.closeRelay r (chordError "released" "relayed hold released") release false
    | .local _ _ => s

/-! ### Links -/

/-- The relays that a link holds, in the order of its holds. -/
def heldRelays (c : ConnId) : List RelayId :=
  (s.conns c).served.filterMap fun e => match e.2 with
    | .relay r => some r
    | .local _ _ => none

/-- The relays that go down a link. -/
def downRelays (c : ConnId) : List RelayId :=
  (List.range s.relayCount).filter fun r => (s.conns c).relayedRefs (s.relays r).downId = some r

/-- A link that closed releases what its peer held here, -/
def dropAll (c : ConnId) : Host P :=
  (Assoc.keys (s.conns c).served).foldl (fun s id => s.dropServed c id true) s

/-- aborts the calls of its peer, -/
def abortIncoming (c : ConnId) : Host P :=
  let s := ((s.conns c).incoming.map Prod.snd).foldl abort s
  s.setConn c { s.conns c with incoming := [] }

/-- and closes the relays that go down it. -/
def closeDown (c : ConnId) (error : WireError) : Host P :=
  let s := (s.downRelays c).foldl (fun s r => s.closeRelay r error false true) s
  s.setConn c { s.conns c with relayedRefs := fun _ => none, relayedCalls := fun _ => none }

/-- `#closed` -/
def closeConn (c : ConnId) (reason : Text) : Host P :=
  let error : WireError :=
    ⟨text "unavailable", text "link to " ++ (s.conns c).name ++ text " closed: " ++ reason, none⟩
  let s := s.setConn c { s.conns c with isOpen := false }
  ((s.dropAll c).abortIncoming c).closeDown c error

/-- The relays of a link are closed. -/
def closeHeld (c : ConnId) (error : WireError) : Host P :=
  (s.heldRelays c).foldl (fun s r => s.closeRelay r error true true) s

/-- `revoke`: the relays made under the old principal close at once. -/
def revoke (c : ConnId) (next : Option (Option P)) : Host P :=
  let s := s.setConn c { s.conns c with generation := (s.conns c).generation + 1 }
  let s := s.closeHeld c (chordError "gone" "principal invalidated")
  match next with
  | none => s.closeConn c (text "principal invalidated")
  | some principal => s.setConn c { s.conns c with principal }

def violation (c : ConnId) (reason : Text) : Host P :=
  s.closeConn c (text "protocol error: " ++ reason)

/-! ### Holds -/

/-- What `host.acquire` makes of a hold of this host: an object of the type's lifetime, or an
error. -/
inductive Acquire where
  | object (hostLifetime : Bool)
  | failed (error : WireError)

/-- `acquire`, of an object here: the principal of the object. -/
def acquirePrincipal (hostLifetime : Bool) (principal : Option P) : Option P :=
  if hostLifetime then s.principal else principal.or s.principal

/-- A relay of a hold begins. -/
def addRelay (c : ConnId) (frame : HoldFrame P) (principal : Option P) (origin : Option Text) :
    Host P :=
  let r := s.relayCount
  let s := { s with relayCount := r + 1 }.setRelay r
    { origin := c, frame, principal, originTag := origin,
      generation := (s.conns c).generation, down := none, downId := 0, closed := false,
      stateWanted := frame.state, calls := [], waiters := [], routing := .authorizing }
  s.setConn c { s.conns c with served := Assoc.set frame.id (.relay r) (s.conns c).served }

/-- `#onHold`, with what `acquire` makes of it if the object is here. -/
def onHold (c : ConnId) (frame : HoldFrame P) (acquire : Acquire) : Host P :=
  if Assoc.has frame.id (s.conns c).served then
    s.violation c (text "duplicate hold id " ++ decimal frame.id)
  else
    let principal := s.principalOf c frame
    let origin := s.originOf c frame
    if frame.host ≠ s.name then
      if (s.conns c).upstream then
        s.send c (.gone frame.id ⟨text "unavailable", s.name ++ text " does not relay", none⟩)
      else s.addRelay c frame principal origin
    else
      match acquire with
      | .failed error => s.send c (.gone frame.id error)
      | .object hostLifetime =>
        (s.act c (.acquired frame.id (s.acquirePrincipal hostLifetime principal))).setConn c
          { s.conns c with
            served := Assoc.set frame.id (.local principal origin) (s.conns c).served }

def setRouting (r : RelayId) (routing : Routing) : Host P :=
  s.setRelay r { s.relays r with routing }

/-- A relay's route goes on, unless it is no longer `current`. -/
def routeOn (r : RelayId) (next : Routing) : Host P :=
  s.setRouting r (if s.current r then next
    else .failing (chordError "gone" "principal invalidated while resolving"))

/-- `route.authorize` answers. -/
def authorized (r : RelayId) (granted : Bool) (next : Routing) : Host P :=
  let relay := s.relays r
  if granted then
    { s with granted := s.granted ++
        [(relay.origin, relay.principal, relay.frame.host, (s.conns relay.origin).generation)]
    }.routeOn r next
  else
    s.setRouting r (.failing
      ⟨text "forbidden", relay.frame.host ++ text " refused for this principal", none⟩)

/-- `#resolve` returned the connection to `relay`. -/
def routed (r : RelayId) (down : ConnId) : Host P :=
  let s := s.setRouting r .done
  if s.current r then s.openRelay r down else s

/-- The rejection of `relay` closes the relay. -/
def rejected (r : RelayId) (error : WireError) : Host P :=
  (s.setRouting r .done).closeRelay r error true true

/-! ### Call frames -/

/-- `Too many calls in progress on this connection …`. -/
def tooManyCalls (maxCalls : Nat) : WireError where
  code := text "unavailable"
  message := text "Too many calls in progress on this connection (" ++ decimal maxCalls ++
    text "); wait for earlier ones to finish"
  reason := some (text "too_many_calls")

/-- How the root of a call begins: `root` or `joinRoot` refuses it, or its signal is aborted from
the start. -/
inductive Begin where
  | runs
  | refused (error : WireError)
  | aborted

/-- `relayCall`, up to its race. -/
def relayCall (t : TaskId) (r : RelayId) : Host P :=
  let relay := s.relays r
  if (s.tasks t).aborted then s.settle t (.error abortError)
  else if relay.closed then s.settle t (.error (chordError "gone" "relayed hold closed"))
  else if relay.down.isSome then s.setTask t { s.tasks t with phase := .ready }
  else
    (s.setTask t { s.tasks t with phase := .waiting }).setRelay r
      { relay with waiters := relay.waiters ++ [t] }

/-- The principal of a hold. -/
def servedPrincipal : Served P → Option P
  | .local principal _ => principal
  | .relay r => (s.relays r).principal

/-- `joinRoot`, or `root`, of a call, and what it runs there. -/
def runCall (t : TaskId) (c : ConnId) (hold : Nat) (served : Served P) : Begin → Host P
  | .refused error => s.settle t (.error error)
  | begin =>
    let s := s.act c (.ran hold ((s.servedPrincipal served).or s.principal))
    let s := match begin with
      | .aborted => s.setTask t { s.tasks t with aborted := true }
      | _ => s
    match served with
    | .local _ _ => s
    | .relay r => s.relayCall t r

/-- A call frame becomes a call of its link. -/
def addTask (c : ConnId) (frame : CallFrame) (relay : Option RelayId) (root : RootRef) : Host P :=
  let t := s.taskCount
  let s := { s with taskCount := t + 1 }.setTask t
    { origin := c, relay, frame, root, phase := .running, aborted := false, sentAs := none,
      sentCurrent := false, answered := false, forgotten := false }
  s.setConn c { s.conns c with incoming := Assoc.set frame.id t (s.conns c).incoming }

/-- The relay of a hold. -/
def servedRelay : Served P → Option RelayId
  | .local _ _ => none
  | .relay r => some r

/-- `#onCall`. Roots are honored from hosts only: a request without one, or from a client, starts
one here. -/
def onCall (c : ConnId) (frame : CallFrame) (started : RootRef) (begin : Begin) : Host P :=
  if Assoc.has frame.id (s.conns c).incoming then
    s.violation c (text "duplicate call id " ++ decimal frame.id)
  else
    let s := { s with called := s.called ++ [(c, frame.id)] }
    if (s.conns c).maxCalls.any (· ≤ (s.conns c).incoming.length) then
      s.send c (.result frame.id (.error (tooManyCalls ((s.conns c).maxCalls.getD 0))))
    else
      match Assoc.get frame.hold (s.conns c).served with
      | none => s.send c (.result frame.id (.error (chordError "gone" "unknown hold")))
      | some served =>
        let root := if (s.conns c).client then started else frame.root.getD started
        (s.addTask c frame (servedRelay served) root).runCall s.taskCount c frame.hold served begin

/-- A `RelayCall` is made, under the next id of the link that its relay goes down. -/
def addRelayCall (t : TaskId) (r : RelayId) (down : ConnId) : Host P :=
  let id := (s.conns down).nextId
  ((s.setConn down { s.conns down with
    nextId := id + 1
    relayedCalls := update (s.conns down).relayedCalls id (some t) }).setRelay r
  { s.relays r with calls := Assoc.set (s.tasks t).frame.id t (s.relays r).calls }).setTask t
  { s.tasks t with phase := .forwarded, sentAs := some id, sentCurrent := s.current r }

/-- What follows the race of `relayCall`, where the relay was ready first. -/
def resume (t : TaskId) (r : RelayId) : Host P :=
  let task := s.tasks t
  let relay := s.relays r
  if relay.closed then s.settle t (.error (chordError "gone" "relayed hold closed"))
  else
    match relay.down with
    | none => s
    | some down =>
      (s.addRelayCall t r down).send down
        (.call { task.frame with
          id := (s.conns down).nextId, hold := relay.downId, root := some task.root })

/-- The result of a call is sent. -/
def answer (t : TaskId) (outcome : Outcome) : Host P :=
  let task := s.tasks t
  (s.setTask t { task with answered := true }).send task.origin (.result task.frame.id outcome)

/-- Its id is free again. -/
def forget (t : TaskId) : Host P :=
  let task := s.tasks t
  (s.setTask t { task with forgotten := true }).setConn task.origin
    { s.conns task.origin with
      incoming := Assoc.erase task.frame.id (s.conns task.origin).incoming }

/-! ### State that a relay forwards -/

/-- `wantState` of a relay. -/
def wantState (r : RelayId) (wanted : Bool) : Host P :=
  let relay := s.relays r
  if relay.closed || wanted == relay.stateWanted then s
  else
    let s := s.setRelay r { relay with stateWanted := wanted }
    match relay.down with
    | some down => s.send down (if wanted then .sub relay.downId else .unsub relay.downId)
    | none => s

/-- `resync` of a relay. -/
def resync (r : RelayId) (m : Text) : Host P :=
  match (s.relays r).closed, (s.relays r).down with
  | false, some down => s.send down (.resync (s.relays r).downId m)
  | _, _ => s

end Host

/-! ### What can happen -/

/-- What can happen to a host. -/
inductive Event (P : Type) where
  | accept (name : Text) (upstream client : Bool) (originId : Option Text)
      (principal : Option P) (maxCalls : Option Nat)
  /-- Frames of a link. -/
  | hold (c : ConnId) (frame : HoldFrame P) (acquire : Host.Acquire)
  | release (c : ConnId) (id : Nat)
  | call (c : ConnId) (frame : CallFrame) (started : RootRef) (begin : Host.Begin)
  | cancel (c : ConnId) (id : Nat)
  | wantState (c : ConnId) (hold : Nat) (wanted : Bool)
  | resync (c : ConnId) (hold : Nat) (m : Text)
  | result (c : ConnId) (id : Nat) (outcome : Outcome)
  | gone (c : ConnId) (id : Nat) (error : WireError)
  /-- The awaits of `#resolve`. -/
  | authorize (r : RelayId) (granted : Bool)
  | resolve (r : RelayId)
  | reauthorize (r : RelayId) (granted : Bool) (down : ConnId)
  | synced (r : RelayId)
  | returned (r : RelayId)
  | fail (r : RelayId) (error : WireError)
  | rejected (r : RelayId)
  /-- What follows the race of a `relayCall`. -/
  | resume (t : TaskId)
  /-- A method of an object here settles. -/
  | settle (t : TaskId) (outcome : Outcome)
  | answer (t : TaskId)
  | forget (t : TaskId)
  /-- The code version of a call's root is made to retire. -/
  | abort (t : TaskId)
  /-- The host takes an id of a link for a request of its own. -/
  | take (c : ConnId)
  /-- `invalidatePrincipal` of a link, with what `restamp` gives. -/
  | revoke (c : ConnId) (next : Option (Option P))
  | close (c : ConnId) (reason : Text)
  /-- An object that a link holds here is gone. -/
  | ended (c : ConnId) (id : Nat) (error : WireError)

namespace Host

variable (s : Host P)

/-- A new connection. -/
def accept (name : Text) (upstream client : Bool) (originId : Option Text)
    (principal : Option P) (maxCalls : Option Nat) : Host P :=
  { s with connCount := s.connCount + 1 }.setConn s.connCount
    { name, isOpen := true, upstream, client, originId, principal, generation := 0, maxCalls,
      nextId := 1, served := [], incoming := [], relayedRefs := fun _ => none,
      relayedCalls := fun _ => none }

/-- One step; `none` where it cannot happen. -/
def step : Event P → Option (Host P)
  | .accept name upstream client originId principal maxCalls =>
    some (s.accept name upstream client originId principal maxCalls)
  | .hold c frame acquire => if (s.conns c).isOpen then some (s.onHold c frame acquire) else none
  | .release c id => if (s.conns c).isOpen then some (s.dropServed c id true) else none
  | .call c frame started begin =>
    if (s.conns c).isOpen then some (s.onCall c frame started begin) else none
  | .cancel c id =>
    if (s.conns c).isOpen then
      match Assoc.get id (s.conns c).incoming with
      | some t => some (s.abort t)
      | none => some s
    else none
  | .wantState c hold wanted =>
    if (s.conns c).isOpen then
      match Assoc.get hold (s.conns c).served with
      | some (.relay r) => some (s.wantState r wanted)
      | _ => some s
    else none
  | .resync c hold m =>
    if (s.conns c).isOpen then
      match Assoc.get hold (s.conns c).served with
      | some (.relay r) => some (s.resync r m)
      | _ => some s
    else none
  | .result c id outcome =>
    if (s.conns c).isOpen then
      let s := { s with received := s.received ++ [(c, Frame.result id outcome)] }
      match (s.conns c).relayedCalls id with
      | some t => some (s.finish t outcome)
      | none => some s
    else none
  | .gone c id error =>
    if (s.conns c).isOpen then
      let s := { s with received := s.received ++ [(c, Frame.gone id error)] }
      match (s.conns c).relayedRefs id with
      | some r => some (s.closeRelay r error false true)
      | none => some s
    else none
  | .authorize r granted =>
    if (s.relays r).routing = .authorizing then some (s.authorized r granted .resolving) else none
  | .resolve r =>
    if (s.relays r).routing = .resolving then some (s.routeOn r .reauthorizing) else none
  | .reauthorize r granted down =>
    if (s.relays r).routing = .reauthorizing ∧ down < s.connCount then
      some (s.authorized r granted (.syncing down))
    else none
  | .synced r =>
    match (s.relays r).routing with
    | .syncing down => some (s.routeOn r (.returning down))
    | _ => none
  | .returned r =>
    match (s.relays r).routing with
    | .returning down => some (s.routed r down)
    | _ => none
  | .fail r error =>
    match (s.relays r).routing with
    | .failing _ | .done => none
    | _ => some (s.setRouting r (.failing error))
  | .rejected r =>
    match (s.relays r).routing with
    | .failing error => some (s.rejected r error)
    | _ => none
  | .resume t =>
    match (s.tasks t).phase, (s.tasks t).relay with
    | .ready, some r => some (s.resume t r)
    | _, _ => none
  | .settle t outcome =>
    match (s.tasks t).phase, (s.tasks t).relay with
    | .running, none => some (s.settle t outcome)
    | _, _ => none
  | .answer t =>
    match (s.tasks t).phase, (s.tasks t).answered with
    | .settled outcome, false => some (s.answer t outcome)
    | _, _ => none
  | .forget t =>
    if (s.tasks t).answered ∧ ¬ (s.tasks t).forgotten then some (s.forget t) else none
  | .abort t => if t < s.taskCount then some (s.abort t) else none
  | .take c => some (s.setConn c { s.conns c with nextId := (s.conns c).nextId + 1 })
  | .revoke c next => if (s.conns c).isOpen then some (s.revoke c next) else none
  | .close c reason => if (s.conns c).isOpen then some (s.closeConn c reason) else none
  | .ended c id error =>
    match Assoc.get id (s.conns c).served with
    | some (.local _ _) => some ((s.dropServed c id false).send c (.gone id error))
    | _ => none

/-- A host without links. -/
def start (name : Text) (principal : Option P) : Host P where
  name
  principal
  conns _ :=
    { name := [], isOpen := false, upstream := false, client := false, originId := none,
      principal := none, generation := 0, maxCalls := none, nextId := 1, served := [],
      incoming := [], relayedRefs := fun _ => none, relayedCalls := fun _ => none }
  connCount := 0
  relays _ :=
    { origin := 0, principal := none, originTag := none, generation := 0, down := none, downId := 0
      frame := ⟨0, [], .null, .null, none, none, true, false⟩
      closed := true, stateWanted := true, calls := [], waiters := [], routing := .done }
  relayCount := 0
  tasks _ :=
    { origin := 0, relay := none, frame := ⟨0, 0, [], none, none⟩, root := ⟨[], 0⟩
      phase := .settled (.value none), aborted := false, sentAs := none, sentCurrent := false,
      answered := true, forgotten := true }
  taskCount := 0
  sent := []
  received := []
  called := []
  granted := []
  acts := []

/-- A run. -/
def run (s : Host P) : List (Event P) → Option (Host P)
  | [] => some s
  | event :: rest => (s.step event).bind fun s => s.run rest

end Host

end TianGong.Relay
