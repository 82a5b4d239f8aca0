/-
**The host manager.**

`createHostManager` (`manager.ts`): it runs a child host process, and keeps at most one alive.

* `Op`, `Phase`: calls wait in a queue, and one at a time goes on.
* `Event`, `step`: calls, messages of children, exits, timeouts, ticks, and what goes on, in any
  order.

A promise that was settled lets the code behind it go on in a step of its own: other events may come
before. A driver may fail to spawn; its other functions return. A kill makes a child exit, and a child
may exit at any time.
-/

import TianGong.Lib.Runs
import TianGong.Text

namespace TianGong.Manager

inductive Status where
  | stopped | starting | running | stopping
  deriving DecidableEq

/-- What a child reports. -/
structure Report where
  activeCalls : Nat
  viewers : Nat
  durableTasks : Nat
  deriving DecidableEq

def Report.work (report : Report) : Nat :=
  report.activeCalls + report.viewers + report.durableTasks

structure Liveness where
  booting : Bool
  report : Report
  idleFor : Nat

structure Exit where
  code : Option Nat
  signal : Option Text
  deriving DecidableEq

/-- `exit.code ?? exit.signal`, in a text. -/
def Exit.name (exit : Exit) : Text :=
  (exit.code.map decimal).getD (exit.signal.getD (text "null"))

/-- A child that was spawned. -/
structure Child where
  exited : Bool
  /-- It has reported that it is ready. -/
  ready : Bool
  deriving DecidableEq

/-- The calls that are serialized. -/
inductive Op where
  | start | stop | replace
  deriving DecidableEq

/-- Where the call is that goes on. -/
inductive Phase where
  | idle
  /-- `doStart` waits for the child to be ready. -/
  | booting (child : Nat)
  /-- The child is ready, and `doStart` will go on. -/
  | readied (child : Nat)
  /-- The start failed: `doStart` has killed the child and waits for its exit. -/
  | failing (child : Nat) (message : Text)
  /-- `doStop` waits for the exit; `replace` will start another child. -/
  | exiting (child : Nat) (again : Bool)
  /-- `replace` has stopped, and will start. -/
  | between
  deriving DecidableEq

/-- How a call ends. -/
inductive Outcome where
  | started (child : Nat)
  | stopped
  | failed (message : Text)
  deriving DecidableEq

structure HostManager where
  status : Status
  /-- `instance` -/
  current : Option Nat
  queue : List Op
  report : Report
  idleSince : Option Nat
  booting : Bool
  /-- The last interval that was set. -/
  timer : Option Nat
  /-- The intervals that are active. -/
  ticking : List Nat
  /-- How many intervals were set. -/
  timers : Nat
  /-- The children that were spawned. -/
  children : List Child
  phase : Phase
  /-- How calls ended, the last first. -/
  outcomes : List Outcome
  deriving DecidableEq

def HostManager.new : HostManager :=
  ⟨.stopped, none, [], ⟨0, 0, 0⟩, none, false, none, [], 0, [], .idle, []⟩

namespace HostManager

variable (s : HostManager)

/-- The call that went on ends. -/
def settle (outcome : Outcome) : HostManager :=
  { s with phase := .idle, outcomes := outcome :: s.outcomes }

/-- `if (timer !== undefined) clearInterval(timer)` -/
def clearTimer : HostManager :=
  match s.timer with
  | none => s
  | some timer => { s with ticking := s.ticking.filter fun t => t ≠ timer }

def isExited (child : Nat) : Bool := (s.children[child]?).any Child.exited

def liveness (now : Nat) : Liveness :=
  ⟨s.booting, s.report, match s.idleSince with
    | none => 0
    | some since => now - since⟩

/-! ### Starting and stopping -/

/-- `doStart`, up to the wait. The driver spawns a child, or throws. -/
def doStart (spawned : Except Text Unit) : HostManager :=
  match s.current, s.status with
  | some child, .running => s.settle (.started child)
  | _, _ =>
    let s := { s with status := .starting, booting := true, report := ⟨0, 0, 0⟩ }
    match spawned with
    | .ok _ =>
      { s with
        current := some s.children.length
        children := s.children ++ [⟨false, false⟩]
        phase := .booting s.children.length }
    | .error message => { s with status := .stopped, booting := false }.settle (.failed message)

/-- What comes after `doStop`. -/
def stopDone (again : Bool) : HostManager :=
  if again then { s with phase := .between } else s.settle .stopped

/-- `doStop`, up to the wait. -/
def doStop (again : Bool) : HostManager :=
  match s.current with
  | none => { s with status := .stopped, booting := false }.stopDone again
  | some child => { s.clearTimer with status := .stopping, phase := .exiting child again }

/-- `doStart` goes on, when the child is ready. -/
def started (keepAlive : Option (Liveness → Bool)) (child now : Nat) : HostManager :=
  let s := { s with
    booting := false
    idleSince := if s.report.work = 0 then some (s.idleSince.getD now) else s.idleSince
    status := .running }
  match keepAlive with
  | none => s.settle (.started child)
  | some _ => { s with
      timer := some s.timers
      ticking := s.timers :: s.ticking
      timers := s.timers + 1 }.settle (.started child)

/-- The start fails while it waits: `settle(reject)`. -/
def fails (child : Nat) (message : Text) : HostManager :=
  if s.phase = .booting child then { s with phase := .failing child message } else s

/-- The child reports that it is ready: `settle(resolve)`. -/
def isReady (child : Nat) : HostManager :=
  let s := { s with children := s.children.modify child fun c => { c with ready := true } }
  if s.phase = .booting child then { s with phase := .readied child } else s

/-- A child has exited. -/
def exit (child : Nat) (exit : Exit) : HostManager :=
  let s := { s with children := s.children.modify child fun c => { c with exited := true } }
  let s := if s.current = some child then
      { s with current := none, status := .stopped }.clearTimer
    else s
  s.fails child (text "child exited before ready (" ++ exit.name ++ text ")")

/-- The child reports its work. -/
def reports (report : Report) (now : Nat) : HostManager :=
  { s with
    report
    idleSince := if report.work > 0 then none else some (s.idleSince.getD now) }

/-! ### Steps -/

inductive Event where
  /-- A call of `start`, `stop` or `replace`. -/
  | call (op : Op)
  /-- The next call in the queue begins. -/
  | begin (spawned : Except Text Unit)
  /-- The call that waited goes on. -/
  | goOn (spawned : Except Text Unit) (now : Nat)
  | ready (child : Nat)
  | fatal (child : Nat) (message : Text)
  | status (child : Nat) (activeCalls viewers durableTasks : Option Nat) (now : Nat)
  /-- The child was not ready in time. -/
  | timeout (child : Nat)
  | exit (child : Nat) (exit : Exit)
  /-- An interval is over. -/
  | tick (timer now : Nat)

/-- The next call begins. -/
def begins (spawned : Except Text Unit) : Op → HostManager
  | .start => s.doStart spawned
  | .stop => s.doStop false
  | .replace => s.doStop true

/-- What goes on. -/
def continues (keepAlive : Option (Liveness → Bool)) (spawned : Except Text Unit) (now : Nat) :
    Option HostManager :=
  match s.phase with
  | .idle | .booting _ => none
  | .readied child => some (s.started keepAlive child now)
  | .failing child message =>
    if s.isExited child then some (s.settle (.failed message)) else none
  | .exiting child again =>
    if s.isExited child then
      some ({ s with
        current := if s.current = some child then none else s.current
        status := .stopped }.stopDone again)
    else none
  | .between => some (s.doStart spawned)

/-- One step; `none` where it cannot happen. -/
def step (keepAlive : Option (Liveness → Bool)) (s : HostManager) : Event → Option HostManager
  | .call op => some { s with queue := s.queue ++ [op] }
  | .begin spawned =>
    match s.phase, s.queue with
    | .idle, op :: queue => some ({ s with queue }.begins spawned op)
    | _, _ => none
  | .goOn spawned now => s.continues keepAlive spawned now
  | .ready child => if child < s.children.length then some (s.isReady child) else none
  | .fatal child message =>
    if child < s.children.length then some (s.fails child (text "child failed: " ++ message))
    else none
  | .status child activeCalls viewers durableTasks now =>
    if child < s.children.length then
      some (s.reports ⟨activeCalls.getD 0, viewers.getD 0, durableTasks.getD 0⟩ now)
    else none
  | .timeout child =>
    if s.phase = .booting child then some (s.fails child (text "child not ready in time")) else none
  | .exit child exit =>
    if child < s.children.length ∧ s.isExited child = false then some (s.exit child exit) else none
  | .tick timer now =>
    if timer ∈ s.ticking then
      match keepAlive with
      | none => some s
      | some keepAlive =>
        if s.status = .running ∧ keepAlive (s.liveness now) = false then
          some { s with queue := s.queue ++ [.stop] }
        else some s
    else none

end HostManager

end TianGong.Manager
