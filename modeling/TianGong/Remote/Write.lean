/-
**A remote write.**

`#write` of `remote-env.ts` (`writeFile` and `appendFile`) over `Connection`, with the daemon of its
session.

* `SystemEvent`, `System.step`, `System.run`: the call, the connection, the daemon, and others that
  open, write and close other files, in any order.

`before` is what the file held when the call began. `writes` logs each write of the call's bytes: to
which file, and whether the call had settled while its session lived. The id of a request is its
index in `requests`: what its promise is.
-/

import TianGong.Remote.Daemon

namespace TianGong.Remote

def WRITE_CHUNK : Nat := 512 * 1024

/-- Chunks in flight. -/
def WRITE_DEPTH : Nat := 8

/-- The promise of a request that was sent. -/
inductive Promise where
  | pending
  | answered (reply : Reply)
  /-- Rejected: the connection was lost. -/
  | lost
  deriving DecidableEq

structure Sent where
  /-- The request is a `close`. -/
  closes : Bool
  promise : Promise

/-- A promise of `handle.request`. -/
inductive Flight where
  | sent (id : Nat)
  /-- Rejected at once: the session has ended. -/
  | refused
  deriving DecidableEq

/-- `Handle` -/
structure RemoteHandle where
  id : Nat
  session : Nat
  deriving DecidableEq

/-- Where a call of `#write` is. -/
inductive WritePhase where
  | begun
  /-- In `#connect`. -/
  | connecting
  | first (id : Nat)
  /-- At the head of the loop. -/
  | loop (handle : RemoteHandle) (offset : Nat) (inFlight : List Flight)
  | awaitOne (handle : RemoteHandle) (written : Flight) (offset : Nat) (inFlight : List Flight)
  /-- Aborted: `Promise.allSettled`. -/
  | aborting (handle : RemoteHandle) (inFlight : List Flight)
  /-- The loop that awaits each of `inFlight`; these are left. -/
  | awaitAll (handle : RemoteHandle) (left inFlight : List Flight)
  /-- `finally`: `Promise.allSettled`. -/
  | cleanup (handle : RemoteHandle) (done : Bool) (inFlight : List Flight)
  | closing (done : Bool) (close : Flight)
  /-- `run` has returned. -/
  | returned
  | settled (done : Bool)

/-- The arguments of `#write`. -/
structure WriteCall where
  path : Text
  bytes : List UInt8
  append : Bool

structure System where
  disk : Disk
  daemon : Daemon
  /-- The daemon's process runs. -/
  up : Bool
  /-- `#session`, if there is one. -/
  current : Option Nat
  /-- `#sessions` -/
  sessions : Nat
  /-- The session that the call's first request was sent in. -/
  session : Nat
  requests : List Sent
  aborted : Bool
  phase : WritePhase
  before : List UInt8
  writes : List (Text × Bool)

/-- What can happen. -/
inductive SystemEvent where
  | abort
  /-- The call goes on. -/
  | advance
  /-- The path does not resolve, or the daemon does not start. -/
  | connectFails
  | connect
  | lose
  /-- The next reply arrives. -/
  | receive
  /-- The daemon reads the next frame. -/
  | read
  | thread (i : Nat) (choice : Choice)
  /-- The daemon's process ends. -/
  | stop
  /-- Another request opens a file to write, or something to read. -/
  | otherOpens (path : Option Text)
  | otherCloses (handle : Nat)
  | otherWrites (path : Text) (bytes : List UInt8)

namespace WriteCall

variable (call : WriteCall)

def first : List UInt8 := call.bytes.take WRITE_CHUNK

def keep : Bool := call.bytes.length > WRITE_CHUNK

def request : Request := .write call.path call.append call.keep call.first

/-- `bytes.subarray(offset, offset + WRITE_CHUNK)` -/
def chunk (offset : Nat) : List UInt8 := (call.bytes.drop offset).take WRITE_CHUNK

end WriteCall

namespace System

variable (call : WriteCall) (s : System)

/-- The call begins. -/
def start (disk : Disk) : System :=
  ⟨disk, .started, true, none, 0, 0, [], false, .begun, disk call.path, []⟩

/-- The call's session lives. -/
def live : Bool := s.current = some s.session

def promise (id : Nat) : Promise := (s.requests[id]?.map Sent.promise).getD .lost

/-- `#send`, on a session that lives. -/
def send (request : Request) (closes : Bool) : System :=
  { s with
    requests := s.requests ++ [⟨closes, .pending⟩]
    daemon := { s.daemon with input := s.daemon.input ++ [⟨s.requests.length, request⟩] } }

/-- `request` of a handle. -/
def request (handle : RemoteHandle) (request : Request) (closes : Bool) : Flight × System :=
  if s.current = some handle.session then (.sent s.requests.length, s.send request closes)
  else (.refused, s)

/-- Whether a promise succeeded, once it has settled. -/
def outcome : Flight → Option Bool
  | .refused => some false
  | .sent id =>
    match s.promise id with
    | .pending => none
    | .answered .error | .lost => some false
    | .answered _ => some true

def allSettled (flights : List Flight) : Bool := flights.all fun flight => (s.outcome flight).isSome

/-- `#write`, to its next `await`. -/
def advance : Option System :=
  match s.phase with
  | .begun => some { s with phase := if s.aborted then .settled false else .connecting }
  | .connecting => s.current.map fun session =>
    { s.send call.request false with session, phase := .first s.requests.length }
  | .first id =>
    match s.promise id with
    | .pending => none
    | .answered .done =>
      -- There is a handle when the file is kept open.
      if call.keep then none else some { s with phase := .returned }
    | .answered (.opened handle) =>
      some { s with phase := if call.keep then .loop ⟨handle, s.session⟩ WRITE_CHUNK []
        else .returned }
    | .answered .error | .lost => some { s with phase := .settled false }
  | .loop handle offset inFlight =>
    if offset < call.bytes.length then
      if s.aborted ∧ ¬ call.append then some { s with phase := .aborting handle inFlight }
      else
        let (written, s) := s.request handle (.writeChunk handle.id (call.chunk offset)) false
        match inFlight ++ [written] with
        | oldest :: rest =>
          if rest.length + 1 ≥ WRITE_DEPTH then
            some { s with phase := .awaitOne handle oldest (offset + WRITE_CHUNK) rest }
          else some { s with phase := .loop handle (offset + WRITE_CHUNK) (oldest :: rest) }
        | [] => none
    else some { s with phase := .awaitAll handle inFlight inFlight }
  | .awaitOne handle written offset inFlight => (s.outcome written).map fun succeeded =>
    { s with phase := if succeeded then .loop handle offset inFlight
      else .cleanup handle false inFlight }
  | .aborting handle inFlight =>
    if s.allSettled inFlight then some { s with phase := .cleanup handle false inFlight } else none
  | .awaitAll handle [] inFlight => some { s with phase := .cleanup handle true inFlight }
  | .awaitAll handle (written :: left) inFlight => (s.outcome written).map fun succeeded =>
    { s with phase := if succeeded then .awaitAll handle left inFlight
      else .cleanup handle false inFlight }
  | .cleanup handle done inFlight =>
    if s.allSettled inFlight then
      let (close, s) := s.request handle (.close handle.id) true
      some { s with phase := .closing done close }
    else none
  | .closing done close => (s.outcome close).map fun _ =>
    { s with phase := if done then .returned else .settled false }
  | .returned => some { s with phase := .settled (¬ (call.append ∧ s.aborted)) }
  | .settled _ => none

/-- `#teardown`: what is pending is rejected. -/
def lose : System :=
  { s with
    current := none
    requests := if s.live then s.requests.map fun sent =>
      if sent.promise = .pending then { sent with promise := .lost } else sent
      else s.requests }

/-- A session starts. Until the call's first request, its daemon is the one that matters. -/
def connect : System :=
  let connected := { s with sessions := s.sessions + 1, current := some (s.sessions + 1) }
  if s.requests = [] then { connected with daemon := .started, up := true } else connected

def dispatch (id : Nat) (reply : Reply) : System :=
  match s.requests[id]? with
  | some ⟨closes, .pending⟩ =>
    { s with requests := s.requests.set id ⟨closes, .answered reply⟩ }
  | _ => s

/-- The call has settled, and its session lives. -/
def isLate : Bool :=
  match s.phase with
  | .settled _ => s.live
  | _ => false

/-- A thread of the daemon takes a step. -/
def thread (i : Nat) (choice : Choice) : Option System :=
  (s.daemon.step s.disk i choice).map fun stepped =>
    { s with
      daemon := stepped.1
      disk := stepped.2.1
      writes := s.writes ++ (stepped.2.2.map fun path => (path, s.isLate)).toList }

/-- A handle is not of the call's file. -/
def isOther (handle : Nat) : Bool :=
  match s.daemon.file handle with
  | some file => s.daemon.files[file]?.all fun handle => handle.path ≠ call.path
  | none => true

/-- One step; `none` where it cannot happen. -/
def step : SystemEvent → Option System
  | .abort => some { s with aborted := true }
  | .advance => s.advance call
  | .connectFails =>
    match s.phase with
    | .connecting => some { s with phase := .settled false }
    | _ => none
  | .connect => if s.current = none then some s.connect else none
  | .lose => some s.lose
  | .receive =>
    match s.daemon.output with
    | (id, reply) :: rest =>
      if s.live then some ({ s with daemon := { s.daemon with output := rest } }.dispatch id reply)
      else none
    | [] => none
  | .read =>
    match s.daemon.input with
    | frame :: rest =>
      if s.up then some { s with daemon := { s.daemon with input := rest }.serve frame } else none
    | [] => none
  | .thread i choice => if s.up then s.thread i choice else none
  | .stop => some { s with up := false }
  | .otherOpens none => (s.daemon.insert .other).map fun opened => { s with daemon := opened.2 }
  | .otherOpens (some path) =>
    if path = call.path then none
    else (s.daemon.insertFile path).map fun opened => { s with daemon := opened.2 }
  | .otherCloses handle =>
    if s.isOther call handle then
      some { s with daemon := { s.daemon with handles := Assoc.erase handle s.daemon.handles } }
    else none
  | .otherWrites path bytes =>
    if path = call.path then none else some { s with disk := s.disk.put path bytes }

/-- A run. -/
def run (s : System) : List SystemEvent → Option System
  | [] => some s
  | event :: rest => (s.step call event).bind fun s => s.run rest

end System

end TianGong.Remote
