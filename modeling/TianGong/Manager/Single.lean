/-
**At most one child.**

* `Single`: what holds of the manager in every state, if no child exits at the wrong moment.
* `single_run`: every run that meets it.
* `dead_running`: a child that exits then is taken to run.

Outside that moment the child that has not exited is the current one, and its exit clears what the
manager believes of it.
-/

import TianGong.Lib.Returns
import TianGong.Manager.Host

namespace TianGong.Manager.HostManager

open Returns

variable {keepAlive : Option (Liveness → Bool)} {s after : HostManager}

/-- A child that was spawned has not exited. -/
def Alive (s : HostManager) (child : Nat) : Prop :=
  ∃ c, s.children[child]? = some c ∧ c.exited = false

/-- A child has not exited, and has reported that it is ready. -/
def Up (s : HostManager) (child : Nat) : Prop :=
  ∃ c, s.children[child]? = some c ∧ c.exited = false ∧ c.ready = true

/-- **What holds of the manager.** -/
structure Single (s : HostManager) : Prop where
  /-- At most one child has not exited. -/
  alone : ∀ i j, s.Alive i → s.Alive j → i = j
  /-- The manager runs a child that is up. -/
  running : s.status = .running → ∃ child, s.current = some child ∧ s.Up child
  /-- At most one interval is active, and none while it is stopped. -/
  ticking : s.ticking.length ≤ 1
  quiet : s.status = .stopped → s.ticking = []

/-- A call that resolves with a child has one that is up. -/
def Resolves (s after : HostManager) : Prop :=
  ∀ child, after.outcomes = .started child :: s.outcomes → after.Up child

/-- No child exits between its report and the going on of `doStart`. -/
def inTime (s : HostManager) : Event → Bool
  | .exit child _ => s.phase ≠ .readied child
  | _ => true

/-! ### The invariant -/

/-- What holds where a call may wait. -/
def Waits (s : HostManager) : Phase → Prop
  | .idle => (s.current = none ∧ s.status = .stopped) ∨
      ∃ child, s.current = some child ∧ s.status = .running ∧ s.Up child
  | .booting child => s.current = some child ∧ s.status = .starting
  | .readied child => s.current = some child ∧ s.status = .starting ∧ s.Up child
  | .failing child _ => (s.current = some child ∧ s.status = .starting) ∨
      (s.current = none ∧ s.status = .stopped)
  | .exiting child _ => (s.current = some child ∧ s.status = .stopping) ∨
      (s.current = none ∧ s.status = .stopped)
  | .between => s.current = none ∧ s.status = .stopped

structure Inv (s : HostManager) : Prop where
  alive : ∀ i, s.Alive i ↔ s.current = some i
  waits : s.Waits s.phase
  ticks : s.ticking = [] ∨ s.status = .running ∧ ∃ t, s.timer = some t ∧ s.ticking = [t]

/-- Only an idle manager is running. -/
theorem Inv.up (inv : Inv s) (running : s.status = .running) :
    ∃ child, s.current = some child ∧ s.Up child := by
  have waits := inv.waits
  cases phase : s.phase <;> rw [phase] at waits <;> unfold Waits at waits
  case idle =>
    rcases waits with ⟨-, stopped⟩ | ⟨child, current, -, up⟩
    · rw [running] at stopped
      cases stopped
    · exact ⟨child, current, up⟩
  all_goals
    simp [running] at waits

theorem Inv.single (inv : Inv s) : Single s where
  alone i j first second :=
    Option.some.inj (((inv.alive i).mp first).symm.trans ((inv.alive j).mp second))
  running := inv.up
  ticking := by
    rcases inv.ticks with none | ⟨-, t, -, one⟩
    · rw [none]
      exact Nat.zero_le 1
    · rw [one]
      exact Nat.le_refl 1
  quiet stopped := by
    rcases inv.ticks with none | ⟨running, -⟩
    · exact none
    · rw [stopped] at running
      cases running

theorem inv_new : Inv .new where
  alive i := by
    constructor
    · rintro ⟨c, here, -⟩
      cases here
    · intro current
      cases current
  waits := .inl ⟨rfl, rfl⟩
  ticks := .inl rfl

/-! ### Starting and stopping -/

/-- No interval is active once the last one is cleared. -/
theorem ticking_clearTimer
    (ticks : s.ticking = [] ∨ s.status = .running ∧ ∃ t, s.timer = some t ∧ s.ticking = [t])
    (status : Status) : ({ s with status := status }.clearTimer).ticking = [] := by
  unfold clearTimer
  rcases ticks with none | ⟨-, t, timer, one⟩
  · split
    · exact none
    · show s.ticking.filter _ = []
      rw [none]
      rfl
  · dsimp only
    rw [timer]
    show s.ticking.filter _ = []
    rw [one]
    simp

@[simp] theorem clearTimer_current : s.clearTimer.current = s.current := by
  unfold clearTimer
  split <;> rfl

@[simp] theorem clearTimer_children : s.clearTimer.children = s.children := by
  unfold clearTimer
  split <;> rfl

@[simp] theorem clearTimer_outcomes : s.clearTimer.outcomes = s.outcomes := by
  unfold clearTimer
  split <;> rfl

@[simp] theorem clearTimer_status : s.clearTimer.status = s.status := by
  unfold clearTimer
  split <;> rfl

@[simp] theorem clearTimer_phase : s.clearTimer.phase = s.phase := by
  unfold clearTimer
  split <;> rfl

/-- A call whose outcome is none resolves with no child. -/
theorem resolves_of_same (outcomes : after.outcomes = s.outcomes) : Resolves s after := by
  intro child is
  rw [outcomes] at is
  exact absurd (congrArg List.length is) (by simp)

theorem resolves_of_other {outcome : Outcome} (other : ∀ child, outcome ≠ .started child)
    (outcomes : after.outcomes = outcome :: s.outcomes) : Resolves s after := by
  intro child is
  rw [outcomes] at is
  exact (other child (List.cons.inj is).1).elim

/-- A child that was just spawned is the one that has not exited. -/
theorem alive_spawn (none : ∀ i, ¬ s.Alive i) (i : Nat) :
    (∃ c, (s.children ++ [⟨false, false⟩])[i]? = some c ∧ c.exited = false) ↔
      some s.children.length = some i := by
  constructor
  · rintro ⟨c, here, alive⟩
    by_cases before : i < s.children.length
    · rw [List.getElem?_append_left before] at here
      exact (none i ⟨c, here, alive⟩).elim
    · rw [List.getElem?_append_right (Nat.le_of_not_lt before)] at here
      obtain ⟨inside, -⟩ := List.getElem?_eq_some_iff.mp here
      rw [List.length_singleton] at inside
      exact congrArg some (by omega)
  · intro same
    obtain rfl := Option.some.inj same
    exact ⟨⟨false, false⟩, by rw [List.getElem?_append_right (Nat.le_refl _), Nat.sub_self]; rfl, rfl⟩

theorem doStart_spawned (gone : s.current = none) : s.doStart (.ok ()) = { s with
    status := .starting
    booting := true
    report := ⟨0, 0, 0⟩
    current := some s.children.length
    children := s.children ++ [⟨false, false⟩]
    phase := .booting s.children.length } := by
  simp [doStart, gone]

theorem doStart_threw (gone : s.current = none) (message : Text) :
    s.doStart (.error message) = { s with
      status := .stopped
      booting := false
      report := ⟨0, 0, 0⟩
      phase := .idle
      outcomes := .failed message :: s.outcomes } := by
  simp [doStart, gone, settle]

variable {child : Nat}

theorem doStart_running (current : s.current = some child) (running : s.status = .running)
    (spawned : Except Text Unit) : s.doStart spawned = s.settle (.started child) := by
  simp [doStart, current, running]

/-- **A start** that begins in an idle manager. -/
theorem inv_doStart (inv : Inv s) (rests : s.Waits .idle) (spawned : Except Text Unit) :
    Inv (s.doStart spawned) ∧ Resolves s (s.doStart spawned) := by
  rcases rests with ⟨gone, stopped⟩ | ⟨child, current, running, up⟩
  · have none (i : Nat) : ¬ s.Alive i := by
      rw [inv.alive, gone]
      intro same
      cases same
    have silent : s.ticking = [] := inv.single.quiet stopped
    cases spawned with
    | ok _ =>
      rw [doStart_spawned gone]
      exact ⟨⟨alive_spawn none, ⟨rfl, rfl⟩, .inl silent⟩, resolves_of_same rfl⟩
    | error message =>
      rw [doStart_threw gone]
      exact ⟨⟨inv.alive, .inl ⟨gone, rfl⟩, .inl silent⟩, resolves_of_other (fun child same => by cases same) rfl⟩
  · rw [doStart_running current running]
    refine ⟨⟨inv.alive, .inr ⟨child, current, running, up⟩, inv.ticks⟩, fun other is => ?_⟩
    cases (List.cons.inj is).1
    exact up

/-- What comes after a stop, when no child is left. -/
theorem inv_stopDone (alive : ∀ i, ¬ s.Alive i) (gone : s.current = none)
    (stopped : s.status = .stopped) (silent : s.ticking = []) (again : Bool) :
    Inv (s.stopDone again) ∧ Resolves s (s.stopDone again) := by
  have none (i : Nat) : s.Alive i ↔ s.current = some i := by
    rw [gone]
    exact iff_of_false (alive i) fun same => by cases same
  unfold stopDone
  split
  · exact ⟨⟨none, ⟨gone, stopped⟩, .inl silent⟩, resolves_of_same rfl⟩
  · exact ⟨⟨none, .inl ⟨gone, stopped⟩, .inl silent⟩, resolves_of_other (fun child same => by cases same) rfl⟩

/-- **A stop** that begins in an idle manager. -/
theorem inv_doStop (inv : Inv s) (rests : s.Waits .idle) (again : Bool) :
    Inv (s.doStop again) ∧ Resolves s (s.doStop again) := by
  rcases rests with ⟨gone, stopped⟩ | ⟨child, current, running, up⟩
  · have none (i : Nat) : ¬ s.Alive i := by
      rw [inv.alive, gone]
      intro same
      cases same
    have is : s.doStop again = { s with status := .stopped, booting := false }.stopDone again := by
      simp [doStop, gone]
    rw [is]
    exact @inv_stopDone { s with status := .stopped, booting := false } none gone rfl
      (inv.single.quiet stopped) again
  · have is : s.doStop again =
        { s.clearTimer with status := .stopping, phase := .exiting child again } := by
      simp [doStop, current]
    rw [is]
    refine ⟨⟨fun i => ?_, .inl ⟨?_, rfl⟩, .inl (ticking_clearTimer inv.ticks s.status)⟩,
      resolves_of_same ?_⟩
    · show (∃ c, s.clearTimer.children[i]? = some c ∧ _) ↔ s.clearTimer.current = some i
      rw [clearTimer_children, clearTimer_current]
      exact inv.alive i
    · show s.clearTimer.current = some child
      rw [clearTimer_current, current]
    · exact clearTimer_outcomes

/-! ### What a child does -/

/-- Fields of a child that change do not make it exit. -/
theorem alive_modify {f : Child → Child} (keeps : ∀ c, (f c).exited = c.exited) (child i : Nat) :
    (∃ c, (s.children.modify child f)[i]? = some c ∧ c.exited = false) ↔ s.Alive i := by
  rw [List.getElem?_modify]
  unfold Alive
  cases here : s.children[i]? with
  | none => simp
  | some c =>
    by_cases same : child = i
    · simp [same, keeps]
    · simp [same]

/-- An exit leaves the others as they were. -/
theorem alive_exit (child i : Nat) :
    (∃ c, (s.children.modify child fun c => { c with exited := true })[i]? = some c ∧
      c.exited = false) ↔ s.Alive i ∧ i ≠ child := by
  rw [List.getElem?_modify]
  unfold Alive
  cases here : s.children[i]? with
  | none => simp
  | some c =>
    by_cases same : child = i
    · simp [same]
    · simp [same, Ne.symm same]

/-- A ready child is up if it is alive. -/
theorem up_ready (alive : s.Alive child) :
    ∃ c, (s.children.modify child fun c => { c with ready := true })[child]? = some c ∧
      c.exited = false ∧ c.ready = true := by
  obtain ⟨c, here, exited⟩ := alive
  refine ⟨{ c with ready := true }, ?_, exited, rfl⟩
  rw [List.getElem?_modify, here]
  simp

/-- A report does not take back another. -/
theorem up_of_ready {i : Nat} (up : s.Up i) :
    ∃ c, (s.children.modify child fun c => { c with ready := true })[i]? = some c ∧
      c.exited = false ∧ c.ready = true := by
  obtain ⟨c, here, exited, ready⟩ := up
  by_cases same : child = i
  · subst same
    exact up_ready ⟨c, here, exited⟩
  · refine ⟨c, ?_, exited, ready⟩
    rw [List.getElem?_modify, here]
    simp [same]

/-- **A child is ready.** -/
theorem inv_isReady (inv : Inv s) (child : Nat) : Inv (s.isReady child) := by
  have alive (i : Nat) := (@alive_modify s (fun c => { c with ready := true })
    (fun _ => rfl) child i).trans (inv.alive i)
  have waits := inv.waits
  unfold isReady
  dsimp only
  split
  · rename_i waiting
    rw [waiting] at waits
    obtain ⟨current, starting⟩ := waits
    refine ⟨alive, ⟨current, starting, up_ready ((inv.alive child).mpr current)⟩, ?_⟩
    rcases inv.ticks with none | ⟨running, -⟩
    · exact .inl none
    · rw [starting] at running
      cases running
  · refine ⟨alive, ?_, inv.ticks⟩
    show Waits _ s.phase
    cases phase : s.phase <;> rw [phase] at waits
    case idle =>
      rcases waits with rests | ⟨i, current, running, up⟩
      · exact .inl rests
      · exact .inr ⟨i, current, running, up_of_ready up⟩
    case readied i =>
      obtain ⟨current, starting, up⟩ := waits
      exact ⟨current, starting, up_of_ready up⟩
    all_goals exact waits

/-- **A start fails.** -/
theorem inv_fails (inv : Inv s) (child : Nat) (message : Text) : Inv (s.fails child message) := by
  unfold fails
  split
  · rename_i waiting
    have waits := inv.waits
    rw [waiting] at waits
    obtain ⟨current, starting⟩ := waits
    refine ⟨inv.alive, .inl ⟨current, starting⟩, ?_⟩
    rcases inv.ticks with none | ⟨running, -⟩
    · exact .inl none
    · rw [starting] at running
      cases running
  · exact inv

theorem fails_outcomes (child : Nat) (message : Text) :
    (s.fails child message).outcomes = s.outcomes := by
  unfold fails
  split <;> rfl

/-- What is left when the current child has exited. -/
theorem exit_current (current : s.current = some child) (exit : Exit) :
    s.exit child exit = (({ s with
      children := s.children.modify child fun c => { c with exited := true }
      current := none
      status := .stopped }.clearTimer).fails child
        (text "child exited before ready (" ++ exit.name ++ text ")")) := by
  simp [HostManager.exit, current]

/-- **A child exits**, and not between its report and what waits for it. -/
theorem inv_exit (inv : Inv s) (exit : Exit) (alive : s.Alive child)
    (inTime : s.phase ≠ .readied child) : Inv (s.exit child exit) := by
  have current := (inv.alive child).mp alive
  have gone (i : Nat) : (∃ c, (s.children.modify child fun c => { c with exited := true })[i]? =
      some c ∧ c.exited = false) ↔ none = some i := by
    rw [alive_exit, inv.alive, current]
    constructor
    · rintro ⟨same, other⟩
      exact (other (Option.some.inj same).symm).elim
    · intro same
      cases same
  have silent := @ticking_clearTimer { s with
    children := s.children.modify child fun c => { c with exited := true }
    current := none } inv.ticks .stopped
  rw [exit_current current]
  generalize cleared : ({ s with
    children := s.children.modify child fun c => { c with exited := true }
    current := none
    status := .stopped } : HostManager).clearTimer = t at silent ⊢
  have isCurrent : t.current = none := by rw [← cleared, clearTimer_current]
  have isStopped : t.status = .stopped := by rw [← cleared, clearTimer_status]
  have isPhase : t.phase = s.phase := by rw [← cleared, clearTimer_phase]
  have isAlive (i : Nat) : t.Alive i ↔ t.current = some i := by
    rw [isCurrent]
    unfold Alive
    rw [← cleared, clearTimer_children]
    exact gone i
  have waits := inv.waits
  unfold fails
  split
  · exact ⟨isAlive, .inr ⟨isCurrent, isStopped⟩, .inl silent⟩
  · rename_i elsewhere
    refine ⟨isAlive, ?_, .inl silent⟩
    rw [isPhase] at elsewhere ⊢
    cases phase : s.phase <;> rw [phase] at waits elsewhere inTime
    case idle => exact .inl ⟨isCurrent, isStopped⟩
    case booting i =>
      rw [Waits, current] at waits
      rw [Option.some.inj waits.1] at elsewhere
      exact (elsewhere rfl).elim
    case readied i =>
      rw [Waits, current] at waits
      rw [Option.some.inj waits.1] at inTime
      exact (inTime rfl).elim
    case failing i message => exact .inr ⟨isCurrent, isStopped⟩
    case exiting i again => exact .inr ⟨isCurrent, isStopped⟩
    case between => exact ⟨isCurrent, isStopped⟩

theorem exit_outcomes (child : Nat) (exit : Exit) : (s.exit child exit).outcomes = s.outcomes := by
  unfold HostManager.exit
  rw [fails_outcomes]
  dsimp only
  split
  · rw [clearTimer_outcomes]
  · rfl

/-! ### Steps -/

/-- An exited child is not alive. -/
theorem not_alive_of_exited (exited : s.isExited child = true) : ¬ s.Alive child := by
  rintro ⟨c, here, alive⟩
  unfold isExited at exited
  rw [here] at exited
  rw [Option.any_some, alive] at exited
  cases exited

/-- **What goes on** keeps the invariant, and resolves with a child that is up. -/
theorem inv_continues (inv : Inv s) {spawned : Except Text Unit} {now : Nat}
    (goes : s.continues keepAlive spawned now = some after) : Inv after ∧ Resolves s after := by
  have waits := inv.waits
  unfold continues at goes
  cases phase : s.phase <;> rw [phase] at goes waits
  case idle | booting => cases goes
  case readied child =>
    cases goes
    obtain ⟨current, starting, up⟩ := waits
    have silent : s.ticking = [] := by
      rcases inv.ticks with none | ⟨running, -⟩
      · exact none
      · rw [starting] at running
        cases running
    unfold started
    cases keepAlive with
    | none =>
      refine ⟨⟨inv.alive, .inr ⟨child, current, rfl, up⟩, .inl silent⟩, fun other is => ?_⟩
      cases (List.cons.inj is).1
      exact up
    | some keepAlive =>
      refine ⟨⟨inv.alive, .inr ⟨child, current, rfl, up⟩, .inr ⟨rfl, s.timers, rfl, ?_⟩⟩,
        fun other is => ?_⟩
      · show s.timers :: s.ticking = [s.timers]
        rw [silent]
      · cases (List.cons.inj is).1
        exact up
  case failing child message =>
    obtain ⟨exited, rfl⟩ := of_guard goes
    rcases waits with ⟨current, -⟩ | rests
    · exact (not_alive_of_exited exited ((inv.alive child).mpr current)).elim
    · exact ⟨⟨inv.alive, .inl rests, inv.ticks⟩,
        resolves_of_other (fun child same => by cases same) rfl⟩
  case exiting child again =>
    obtain ⟨exited, rfl⟩ := of_guard goes
    rcases waits with ⟨current, -⟩ | ⟨gone, stopped⟩
    · exact (not_alive_of_exited exited ((inv.alive child).mpr current)).elim
    · have none (i : Nat) : ¬ s.Alive i := by
        rw [inv.alive, gone]
        intro same
        cases same
      refine @inv_stopDone { s with
        current := if s.current = some child then Option.none else s.current
        status := .stopped } none ?_ rfl (inv.single.quiet stopped) again
      show (if s.current = some child then Option.none else s.current) = Option.none
      rw [gone, ite_self]
  case between =>
    cases goes
    exact inv_doStart inv (.inl waits) spawned

/-- The next call may begin where none goes on. -/
theorem inv_begins (inv : Inv s) (rests : s.phase = .idle) (spawned : Except Text Unit) (op : Op) :
    Inv (s.begins spawned op) ∧ Resolves s (s.begins spawned op) := by
  have waits := inv.waits
  rw [rests] at waits
  cases op with
  | start => exact inv_doStart inv waits spawned
  | stop => exact inv_doStop inv waits false
  | replace => exact inv_doStop inv waits true

/-- **One step.** -/
theorem inv_step (inv : Inv s) {event : Event} (timely : s.inTime event = true)
    (stepped : s.step keepAlive event = some after) : Inv after ∧ Resolves s after := by
  cases event with
  | call op =>
    cases stepped
    exact ⟨⟨inv.alive, inv.waits, inv.ticks⟩, resolves_of_same rfl⟩
  | begin spawned =>
    rw [step] at stepped
    split at stepped
    · rename_i op queue rests isQueue
      cases stepped
      exact @inv_begins { s with queue } ⟨inv.alive, inv.waits, inv.ticks⟩ rests spawned op
    · cases stepped
  | goOn spawned now => exact inv_continues inv stepped
  | ready child =>
    obtain ⟨-, rfl⟩ := of_guard stepped
    refine ⟨inv_isReady inv child, resolves_of_same ?_⟩
    unfold isReady
    dsimp only
    split <;> rfl
  | fatal child message | timeout child =>
    obtain ⟨-, rfl⟩ := of_guard stepped
    exact ⟨inv_fails inv child _, resolves_of_same (fails_outcomes child _)⟩
  | status child activeCalls viewers durableTasks now =>
    obtain ⟨-, rfl⟩ := of_guard stepped
    exact ⟨⟨inv.alive, inv.waits, inv.ticks⟩, resolves_of_same rfl⟩
  | exit child exit =>
    obtain ⟨⟨inside, notExited⟩, rfl⟩ := of_guard stepped
    have alive : s.Alive child := by
      have here := List.getElem?_eq_getElem inside
      refine ⟨_, here, ?_⟩
      unfold isExited at notExited
      rw [here] at notExited
      exact notExited
    exact ⟨inv_exit inv exit alive (of_decide_eq_true timely),
      resolves_of_same (exit_outcomes child exit)⟩
  | tick timer now =>
    obtain ⟨-, is⟩ := Option.ite_none_right_eq_some.mp stepped
    split at is
    · cases is
      exact ⟨inv, resolves_of_same rfl⟩
    · split at is
      · cases is
        exact ⟨⟨inv.alive, inv.waits, inv.ticks⟩, resolves_of_same rfl⟩
      · cases is
        exact ⟨inv, resolves_of_same rfl⟩

/-! ### Runs -/

/-- **At most one child runs**, in every state of a run in which no child exits between its report and
the going on of `doStart`; and a call resolves with a child that is up. -/
theorem single_run (keepAlive : Option (Liveness → Bool)) {events : List Event}
    (timely : Runs.meets (step keepAlive) inTime .new events = true) :
    (∀ s ∈ Runs.states (step keepAlive) .new events, Single s) ∧
      (Runs.states (step keepAlive) .new events).IsChain Resolves := by
  obtain ⟨all, chain⟩ := @Runs.isChain_of_meets _ _ (step keepAlive) inTime Inv Resolves
    (fun s event next inv timely stepped => inv_step inv timely stepped) _ inv_new _ timely
  exact ⟨fun s inside => (all s inside).single, chain⟩

/-- A start, a tick that finds it idle, and the stop. -/
def idleEvents : List Event :=
  [.call .start, .begin (.ok ()), .ready 0, .goOn (.ok ()) 0, .tick 0 1000, .begin (.ok ()),
    .exit 0 ⟨some 0, none⟩, .goOn (.ok ()) 1001]

theorem single_idle :
    (∀ s ∈ Runs.states (step (some fun _ => false)) .new idleEvents, Single s) ∧
      (Runs.states (step (some fun _ => false)) .new idleEvents).IsChain Resolves :=
  single_run (some fun _ => false) (by decide)

/-- A child that reports that it is ready and exits at once. -/
def deadEvents : List Event :=
  [.call .start, .begin (.ok ()), .ready 0, .exit 0 ⟨some 1, none⟩, .goOn (.ok ()) 0]

/-- **A dead child is taken to run**, and the start resolves with it. -/
theorem dead_running :
    ¬ ((∀ s ∈ Runs.states (step none) .new deadEvents, Single s) ∧
      (Runs.states (step none) .new deadEvents).IsChain Resolves) := by
  rintro ⟨all, -⟩
  have last : (Runs.states (step none) .new deadEvents).getLast?.map
      (fun s => (s.status, s.current, s.outcomes)) =
        some (.running, none, [.started 0]) := by decide
  obtain ⟨s, isLast, facts⟩ := Option.map_eq_some_iff.mp last
  simp only [Prod.mk.injEq] at facts
  obtain ⟨running, gone, -⟩ := facts
  obtain ⟨child, current, -⟩ := (all s (List.mem_of_getLast? isLast)).running running
  rw [gone] at current
  cases current

end TianGong.Manager.HostManager
