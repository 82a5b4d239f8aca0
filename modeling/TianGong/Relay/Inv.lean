/-
**What the maps of a relaying host say of one another.**

* `Inv K`: the invariant of the maps: a link's `served` and its relays, a link's `relayedRefs` and
  the relays that go down it, the calls and waiters of a relay and the calls that wait or are
  forwarded. `K` is a relay that is being closed: it is closed already, and still mentioned.
* `inv_finish`, `inv_abort`, …: what a call does keeps it.
* `inv_closeRelay`: a relay that has closed is mentioned nowhere.
-/

import TianGong.Relay.Host

namespace TianGong.Relay

open Function (update update_apply update_of_ne update_self)

attribute [local grind =] update_apply

variable {P : Type}

namespace Host

variable (s : Host P)

/-! ### Parts -/

/-- A frame of a call goes on link `d` as `k`. -/
def SentOn (t : TaskId) (d : ConnId) (k : Nat) : Prop :=
  (s.tasks t).sentAs = some k ∧ ∃ r, (s.tasks t).relay = some r ∧ (s.relays r).down = some d

/-- Only `r` is served where the hold of `r` is. -/
def Own (r : RelayId) : Prop :=
  ∀ r', Assoc.get (s.relays r).frame.id (s.conns (s.relays r).origin).served =
    some (.relay r') → r' = r

/-- A relay may still be mentioned: it is not closed, or it is the one that is being closed. -/
def Named (K : Option RelayId) (r : RelayId) : Prop := (s.relays r).closed = false ∨ K = some r

end Host

/-- **What links and relays say of one another.** -/
structure Links (K : Option RelayId) (s : Host P) : Prop where
  relayBound : ∀ r, s.relayCount ≤ r → (s.relays r).closed = true ∧ (s.relays r).down = none
  originBound : ∀ r, r < s.relayCount → (s.relays r).origin < s.connCount
  downBound : ∀ r d, (s.relays r).down = some d → d < s.connCount
  routeBound : ∀ r d, (s.relays r).routing = .syncing d ∨ (s.relays r).routing = .returning d →
    d < s.connCount
  served_of : ∀ c id r, Assoc.get id (s.conns c).served = some (.relay r) →
    (s.relays r).origin = c ∧ (s.relays r).frame.id = id ∧ s.Named K r
  of_open : ∀ r, (s.relays r).closed = false → K ≠ some r →
    Assoc.get (s.relays r).frame.id (s.conns (s.relays r).origin).served = some (.relay r)
  refs_of : ∀ d k r, (s.conns d).relayedRefs k = some r →
    (s.relays r).down = some d ∧ (s.relays r).downId = k ∧ s.Named K r
  of_down : ∀ r d, (s.relays r).closed = false → K ≠ some r → (s.relays r).down = some d →
    (s.conns d).relayedRefs (s.relays r).downId = some r
  downId : ∀ r d, (s.relays r).down = some d → (s.relays r).downId < (s.conns d).nextId
  down_inj : ∀ r r' d, (s.relays r).down = some d → (s.relays r').down = some d →
    (s.relays r).downId = (s.relays r').downId → r = r'
  routed : ∀ r, (s.relays r).closed = false → K ≠ some r → (s.relays r).down = none →
    (s.relays r).routing ≠ .done
  unrouted : ∀ r, (s.relays r).routing ≠ .done → (s.relays r).down = none

/-- **What calls and relays say of one another.** -/
structure Calls (K : Option RelayId) (s : Host P) : Prop where
  taskBound : ∀ t, s.taskCount ≤ t → (∃ outcome, (s.tasks t).phase = .settled outcome) ∧
    (s.tasks t).sentAs = none ∧ (s.tasks t).relay = none
  relayBound : ∀ t r, (s.tasks t).relay = some r → r < s.relayCount
  waiting : ∀ t, (s.tasks t).phase = .waiting → ∃ r, (s.tasks t).relay = some r ∧
    t ∈ (s.relays r).waiters ∧ (s.tasks t).sentAs = none
  waiters_of : ∀ r t, t ∈ (s.relays r).waiters →
    (s.tasks t).relay = some r ∧ (s.relays r).down = none ∧ s.Named K r
  ready : ∀ t, (s.tasks t).phase = .ready → ∃ r, (s.tasks t).relay = some r ∧
    (s.tasks t).sentAs = none ∧ ((s.relays r).closed = true ∨ (s.relays r).down.isSome)
  running : ∀ t, (s.tasks t).phase = .running → (s.tasks t).sentAs = none
  forwarded : ∀ t, (s.tasks t).phase = .forwarded → ∃ r d k, (s.tasks t).relay = some r ∧
    (s.relays r).down = some d ∧ (s.tasks t).sentAs = some k ∧
    Assoc.get (s.tasks t).frame.id (s.relays r).calls = some t ∧
    (s.conns d).relayedCalls k = some t
  callKeys : ∀ r, (Assoc.keys (s.relays r).calls).Nodup
  calls_of : ∀ r id t, Assoc.get id (s.relays r).calls = some t →
    (s.tasks t).relay = some r ∧ (s.tasks t).frame.id = id ∧ (s.tasks t).phase = .forwarded ∧
      s.Named K r
  relayedCalls_of : ∀ d k t, (s.conns d).relayedCalls k = some t →
    (s.tasks t).phase = .forwarded ∧ s.SentOn t d k
  sentAs_of : ∀ t k, (s.tasks t).sentAs = some k → ∃ r d, (s.tasks t).relay = some r ∧
    (s.relays r).down = some d ∧ k < (s.conns d).nextId
  sent_inj : ∀ t t' r r' d k, (s.tasks t).sentAs = some k → (s.tasks t').sentAs = some k →
    (s.tasks t).relay = some r → (s.tasks t').relay = some r' →
    (s.relays r).down = some d → (s.relays r').down = some d → t = t'

variable (outcome : Outcome)

variable (list : List TaskId)

variable {t : TaskId} {r : RelayId}

namespace Host

variable {K : Option RelayId} {s : Host P}

/-- What a relay keeps, every relay keeps. -/
theorem relays_part {A : Type} (part : RelayRef P → A) {relay : RelayRef P}
    (same : part relay = part (s.relays r)) (r' : RelayId) :
    part ((s.setRelay r relay).relays r') = part (s.relays r') := by
  rcases eq_or_ne r' r with rfl | other
  · simpa only [setRelay, update_self] using same
  · simp only [setRelay, update_of_ne other]

/-- A task that is not forwarded may settle, or be ready. -/
theorem calls_setTask (calls : Calls K s) {task : Task} (relay : task.relay = (s.tasks t).relay)
    (sentAs : task.sentAs = (s.tasks t).sentAs) (frame : task.frame = (s.tasks t).frame)
    (after : task.phase = (s.tasks t).phase ∨
      (s.tasks t).phase ≠ .forwarded ∧ (∃ outcome, task.phase = .settled outcome) ∨
      (s.tasks t).phase = .running ∧ task.phase = .ready ∧ ∃ r, (s.tasks t).relay = some r ∧
        ((s.relays r).closed = true ∨ (s.relays r).down.isSome)) :
    Calls K (s.setTask t task) := by
  have running := calls.running t
  constructor
  all_goals dsimp only [setTask]
  case taskBound =>
    intro t' later
    have bound := calls.taskBound t' later
    grind
  case relayBound =>
    intro t' r
    have bound := calls.relayBound t' r
    grind
  case waiting =>
    intro t' phase
    have waiting := calls.waiting t'
    grind
  case waiters_of =>
    intro r t' member
    have waits := calls.waiters_of r t' member
    grind [Named]
  case ready =>
    intro t' phase
    have ready := calls.ready t'
    grind
  case running =>
    intro t' phase
    have running := calls.running t'
    grind
  case forwarded =>
    intro t' phase
    have forwarded := calls.forwarded t'
    grind
  case callKeys => exact calls.callKeys
  case calls_of =>
    intro r id t' found
    have call := calls.calls_of r id t' found
    grind [Named]
  case relayedCalls_of =>
    intro d k t' found
    have call := calls.relayedCalls_of d k t' found
    grind [SentOn]
  case sentAs_of =>
    intro t' k
    have sent := calls.sentAs_of t' k
    grind
  case sent_inj =>
    intro t₁ t₂ r r' d k
    have same := calls.sent_inj t₁ t₂ r r' d k
    grind

theorem calls_settle (calls : Calls K s) (outcome : Outcome)
    (idle : (s.tasks t).phase ≠ .forwarded) : Calls K (s.settle t outcome) := by
  unfold settle
  split
  · exact calls
  · exact calls_setTask calls rfl rfl rfl (.inr (.inl ⟨idle, outcome, rfl⟩))

theorem finish_eq (calls : Calls K s) {t : TaskId} (outcome : Outcome)
    (phase : (s.tasks t).phase = .forwarded) :
    ∃ r d k, (s.tasks t).relay = some r ∧ (s.relays r).down = some d ∧
      (s.tasks t).sentAs = some k ∧
      Assoc.get (s.tasks t).frame.id (s.relays r).calls = some t ∧
      (s.conns d).relayedCalls k = some t ∧
      s.finish t outcome =
        ((s.setRelay r { s.relays r with
            calls := Assoc.erase (s.tasks t).frame.id (s.relays r).calls }).setConn d
          { s.conns d with relayedCalls := update (s.conns d).relayedCalls k none }).setTask t
          { s.tasks t with phase := .settled outcome } := by
  obtain ⟨r, d, k, relay, down, sentAs, call, relayed⟩ := calls.forwarded t phase
  refine ⟨r, d, k, relay, down, sentAs, call, relayed, ?_⟩
  simp only [finish, settle, setConn, setRelay, setTask, phase, relay, down, sentAs]

theorem finish_idle {outcome : Outcome} (idle : (s.tasks t).phase ≠ .forwarded) :
    s.finish t outcome = s := by
  unfold finish
  split
  · rename_i phase _
    exact absurd phase idle
  · rfl

theorem calls_finish (calls : Calls K s) (t : TaskId) (outcome : Outcome) :
    Calls K (s.finish t outcome) := by
  by_cases phase : (s.tasks t).phase = .forwarded
  · obtain ⟨r, d, k, relay, down, sentAs, call, relayed, eq⟩ := finish_eq calls outcome phase
    rw [eq]
    clear eq
    constructor
    all_goals dsimp only [setTask, setConn, setRelay]
    case taskBound =>
      intro t' later
      have bound := calls.taskBound t' later
      grind
    case relayBound =>
      intro t' r
      have bound := calls.relayBound t' r
      grind
    case waiting =>
      intro t' phase
      have waiting := calls.waiting t'
      grind
    case waiters_of =>
      intro r t' member
      have waits := calls.waiters_of r t'
      grind [Named]
    case ready =>
      intro t' phase
      have ready := calls.ready t'
      grind
    case running =>
      intro t' phase
      have running := calls.running t'
      grind
    case forwarded =>
      intro t' phase'
      rcases eq_or_ne t' t with rfl | other
      · simp at phase'
      · rw [update_of_ne other] at phase' ⊢
        obtain ⟨r', d', k', relay', down', sentAs', call', relayed'⟩ := calls.forwarded t' phase'
        refine ⟨r', d', k', relay', ?_, sentAs', ?_, ?_⟩
        · grind
        · grind [Assoc.get_erase]
        · rcases eq_or_ne d' d with rfl | otherConn
          · rw [update_self]
            show update (s.conns d').relayedCalls k none k' = some t'
            grind
          · rw [update_of_ne otherConn]
            exact relayed'
    case callKeys =>
      intro r'
      have keys := calls.callKeys r'
      grind [Assoc.nodup_erase]
    case calls_of =>
      intro r' id t' found
      have of := calls.calls_of r' id t'
      grind [Named, Assoc.get_erase]
    case relayedCalls_of =>
      intro d' k' t' found
      have of := calls.relayedCalls_of d' k' t'
      rcases eq_or_ne d' d with rfl | otherConn
      · rw [update_self] at found
        change update (s.conns d').relayedCalls k none k' = some t' at found
        grind [SentOn]
      · rw [update_of_ne otherConn] at found
        grind [SentOn]
    case sentAs_of =>
      intro t' k
      have sent := calls.sentAs_of t' k
      grind
    case sent_inj =>
      intro t₁ t₂ r r' d k
      have same := calls.sent_inj t₁ t₂ r r' d k
      grind
  · rw [finish_idle phase]
    exact calls

theorem send_conns (s : Host P) (c : ConnId) (frame : Frame P) :
    (s.send c frame).conns = s.conns := by
  unfold send
  split <;> rfl

theorem send_relays (s : Host P) (c : ConnId) (frame : Frame P) :
    (s.send c frame).relays = s.relays := by
  unfold send
  split <;> rfl

theorem send_tasks (s : Host P) (c : ConnId) (frame : Frame P) :
    (s.send c frame).tasks = s.tasks := by
  unfold send
  split <;> rfl

theorem send_sent (s : Host P) (c : ConnId) (frame : Frame P) :
    (s.send c frame).sent = s.sent ++ if (s.conns c).isOpen then [(c, frame)] else [] := by
  unfold send
  split
  · rfl
  · exact (List.append_nil _).symm

theorem send_received (s : Host P) (c : ConnId) (frame : Frame P) :
    (s.send c frame).received = s.received := by
  unfold send
  split <;> rfl

theorem send_called (s : Host P) (c : ConnId) (frame : Frame P) :
    (s.send c frame).called = s.called := by
  unfold send
  split <;> rfl

theorem send_counts (s : Host P) (c : ConnId) (frame : Frame P) :
    (s.send c frame).taskCount = s.taskCount ∧ (s.send c frame).connCount = s.connCount := by
  unfold send
  split <;> exact ⟨rfl, rfl⟩

theorem calls_send (calls : Calls K s) (c : ConnId) (frame : Frame P) :
    Calls K (s.send c frame) := by
  unfold send
  split
  · exact { calls with }
  · exact calls

theorem calls_cancel (calls : Calls K s) (t : TaskId) (error : WireError) (forward : Bool) :
    Calls K (s.cancel t error forward) := by
  unfold cancel
  split
  · split
    · exact calls_finish (calls_send calls _ _) _ _
    · exact calls_finish calls _ _
  · exact calls

theorem calls_abort (calls : Calls K s) (t : TaskId) : Calls K (s.abort t) := by
  have marked : Calls K (s.setTask t { s.tasks t with aborted := true }) :=
    calls_setTask calls rfl rfl rfl (.inl rfl)
  unfold abort
  dsimp only
  split
  · rename_i waiting
    exact calls_settle marked _ (by rw [waiting]; exact fun is => by cases is)
  · exact calls_cancel marked t _ _
  · exact marked

/-! ### What calls leave alone -/

/-- Calls leave the links alone. -/
structure CallsOnly (s after : Host P) : Prop where
  conns : ∀ c, after.conns c = { s.conns c with relayedCalls := (after.conns c).relayedCalls }
  relays : ∀ r, after.relays r = { s.relays r with calls := (after.relays r).calls }
  tasks : ∀ t, after.tasks t =
    { s.tasks t with phase := (after.tasks t).phase, aborted := (after.tasks t).aborted }
  settled : ∀ t outcome, (s.tasks t).phase = .settled outcome →
    (after.tasks t).phase = .settled outcome
  connCount : after.connCount = s.connCount
  relayCount : after.relayCount = s.relayCount
  taskCount : after.taskCount = s.taskCount

theorem CallsOnly.refl (s : Host P) : CallsOnly s s :=
  ⟨fun _ => rfl, fun _ => rfl, fun _ => rfl, fun _ _ is => is, rfl, rfl, rfl⟩

theorem CallsOnly.trans {s₁ s₂ s₃ : Host P} (first : CallsOnly s₁ s₂) (second : CallsOnly s₂ s₃) :
    CallsOnly s₁ s₃ where
  conns c := by
    rw [second.conns c, first.conns c]
  relays r := by
    rw [second.relays r, first.relays r]
  tasks t := by
    rw [second.tasks t, first.tasks t]
  settled t outcome is := second.settled t outcome (first.settled t outcome is)
  connCount := second.connCount.trans first.connCount
  relayCount := second.relayCount.trans first.relayCount
  taskCount := second.taskCount.trans first.taskCount

theorem callsOnly_setTask {task : Task}
    (same : task = { s.tasks t with phase := task.phase, aborted := task.aborted })
    (settled : ∀ outcome, (s.tasks t).phase = .settled outcome → task.phase = .settled outcome) :
    CallsOnly s (s.setTask t task) := by
  refine ⟨fun _ => rfl, fun _ => rfl, fun t' => ?_, fun t' outcome is => ?_, rfl, rfl, rfl⟩
  · rcases eq_or_ne t' t with rfl | other
    · simpa only [setTask, update_self] using same
    · simp only [setTask, update_of_ne other]
  · rcases eq_or_ne t' t with rfl | other
    · simpa only [setTask, update_self] using settled outcome is
    · simpa only [setTask, update_of_ne other] using is

theorem callsOnly_settle (s : Host P) (t : TaskId) (outcome : Outcome) :
    CallsOnly s (s.settle t outcome) := by
  unfold settle
  split
  · exact .refl s
  · rename_i unsettled
    exact callsOnly_setTask rfl fun o is => absurd is (unsettled o)

theorem callsOnly_send (s : Host P) (c : ConnId) (frame : Frame P) :
    CallsOnly s (s.send c frame) := by
  unfold send
  split
  · exact ⟨fun _ => rfl, fun _ => rfl, fun _ => rfl, fun _ _ is => is, rfl, rfl, rfl⟩
  · exact .refl s

theorem callsOnly_calls (s : Host P) (r : RelayId) (calls : List (Nat × TaskId)) :
    CallsOnly s (s.setRelay r { s.relays r with calls }) := by
  refine ⟨fun _ => rfl, fun r' => ?_, fun _ => rfl, fun _ _ is => is, rfl, rfl, rfl⟩
  rcases eq_or_ne r' r with rfl | other
  · simp only [setRelay, update_self]
  · simp only [setRelay, update_of_ne other]

theorem callsOnly_relayedCalls (s : Host P) (d : ConnId) (relayedCalls : Nat → Option TaskId) :
    CallsOnly s (s.setConn d { s.conns d with relayedCalls }) := by
  refine ⟨fun d' => ?_, fun _ => rfl, fun _ => rfl, fun _ _ is => is, rfl, rfl, rfl⟩
  rcases eq_or_ne d' d with rfl | other
  · simp only [setConn, update_self]
  · simp only [setConn, update_of_ne other]

theorem callsOnly_finish (s : Host P) (t : TaskId) (outcome : Outcome) :
    CallsOnly s (s.finish t outcome) := by
  unfold finish
  split
  · rename_i r _ _
    dsimp only
    refine .trans ?_ (callsOnly_settle _ t outcome)
    refine .trans (callsOnly_calls s r (Assoc.erase (s.tasks t).frame.id (s.relays r).calls)) ?_
    split
    · exact callsOnly_relayedCalls _ _ _
    · exact .refl _
  · exact .refl s

theorem callsOnly_cancel (s : Host P) (t : TaskId) (error : WireError) (forward : Bool) :
    CallsOnly s (s.cancel t error forward) := by
  unfold cancel
  split
  · refine .trans ?_ (callsOnly_finish _ t _)
    split
    · exact callsOnly_send s _ _
    · exact .refl s
  · exact .refl s

theorem callsOnly_abort (s : Host P) (t : TaskId) : CallsOnly s (s.abort t) := by
  have marked : CallsOnly s (s.setTask t { s.tasks t with aborted := true }) :=
    callsOnly_setTask rfl fun _ is => is
  unfold abort
  refine .trans marked ?_
  dsimp only
  split
  · exact callsOnly_settle _ t _
  · exact callsOnly_cancel _ t _ _
  · exact .refl _

theorem CallsOnly.foldl {A : Type} {f : Host P → A → Host P} (one : ∀ s a, CallsOnly s (f s a))
    (list : List A) (s : Host P) : CallsOnly s (list.foldl f s) := by
  induction list generalizing s with
  | nil => exact .refl s
  | cons a rest ih => exact .trans (one s a) (ih _)

theorem CallsOnly.links {after : Host P} (only : CallsOnly s after) (links : Links K s) :
    Links K after := by
  have conns := only.conns
  have relays := only.relays
  constructor
  case relayBound =>
    rw [only.relayCount]
    intro r
    rw [relays r]
    exact links.relayBound r
  case originBound =>
    rw [only.relayCount, only.connCount]
    intro r
    rw [relays r]
    exact links.originBound r
  case downBound =>
    rw [only.connCount]
    intro r
    rw [relays r]
    exact links.downBound r
  case routeBound =>
    rw [only.connCount]
    intro r
    rw [relays r]
    exact links.routeBound r
  case served_of =>
    intro c id r
    rw [conns c, Named, relays r]
    exact links.served_of c id r
  case of_open =>
    intro r
    rw [relays r, conns]
    exact links.of_open r
  case refs_of =>
    intro d k r
    rw [conns d, Named, relays r]
    exact links.refs_of d k r
  case of_down =>
    intro r d
    rw [relays r, conns d]
    exact links.of_down r d
  case downId =>
    intro r d
    rw [relays r, conns d]
    exact links.downId r d
  case down_inj =>
    intro r r' d
    rw [relays r, relays r']
    exact links.down_inj r r' d
  case routed =>
    intro r
    rw [relays r]
    exact links.routed r
  case unrouted =>
    intro r
    rw [relays r]
    exact links.unrouted r

/-! ### A relay closes -/

theorem erase_cons_self {V : Type} {id : Nat} {v : V} {rest : List (Nat × V)}
    (nodup : (Assoc.keys ((id, v) :: rest)).Nodup) : Assoc.erase id ((id, v) :: rest) = rest := by
  have fresh : id ∉ Assoc.keys rest := (List.nodup_cons.mp nodup).1
  unfold Assoc.erase
  rw [List.filter_cons_of_neg (by simp)]
  refine List.filter_eq_self.mpr fun e member => decide_eq_true fun same => fresh ?_
  exact List.mem_map.mpr ⟨e, member, same⟩

theorem cancel_calls (calls : Calls K s) {r : RelayId} {id : Nat} {t : TaskId}
    {rest : List (Nat × TaskId)} (mine : (s.relays r).calls = (id, t) :: rest)
    (error : WireError) (forward : Bool) :
    ((s.cancel t error forward).relays r).calls = rest := by
  have found : Assoc.get id (s.relays r).calls = some t := by
    rw [mine]
    exact Assoc.get_cons_self id t rest
  have keys := calls.callKeys r
  rw [mine] at keys
  obtain ⟨relay, frame, phase, -⟩ := calls.calls_of r id t found
  have finished : ∀ s' : Host P, Calls K s' → s'.relays = s.relays → s'.tasks = s.tasks →
      ((s'.finish t (.error error)).relays r).calls = rest := by
    intro s' calls' relays tasks
    obtain ⟨r', d, k, relay', -, -, -, -, eq⟩ :=
      finish_eq calls' (.error error) (by rw [tasks]; exact phase)
    rw [tasks, relay] at relay'
    cases relay'
    rw [eq]
    simp only [setTask, setConn, setRelay, update_self, relays, tasks, mine, frame]
    exact erase_cons_self keys
  unfold cancel
  rw [phase, relay]
  dsimp only
  split
  · exact finished _ (calls_send calls _ _) (send_relays ..) (send_tasks ..)
  · exact finished s calls rfl rfl

/-- Each call of a relay is cancelled. -/
theorem calls_cancelCalls (calls : Calls K s) (r : RelayId) (error : WireError) (forward : Bool) :
    Calls K (s.cancelCalls r error forward) ∧
      ((s.cancelCalls r error forward).relays r).calls = [] := by
  unfold cancelCalls
  generalize mine : (s.relays r).calls = list
  induction list generalizing s with
  | nil => exact ⟨calls, mine⟩
  | cons e rest ih =>
    exact ih (calls_cancel calls e.2 error forward) (cancel_calls calls mine error forward)

theorem callsOnly_cancelCalls (s : Host P) (r : RelayId) (error : WireError) (forward : Bool) :
    CallsOnly s (s.cancelCalls r error forward) :=
  CallsOnly.foldl (fun s t => callsOnly_cancel s t error forward) _ s

/-- A relay changes in what links do not depend on, closes, or goes on with its route. -/
theorem links_putRelay (links : Links K s) {K' : Option RelayId} {relay : RelayRef P}
    (origin : relay.origin = (s.relays r).origin) (frame : relay.frame = (s.relays r).frame)
    (down : relay.down = (s.relays r).down) (downId : relay.downId = (s.relays r).downId)
    (closed : (s.relays r).closed = true → relay.closed = true)
    (named : ∀ r', s.Named K r' → (s.setRelay r relay).Named K' r')
    (opened : ∀ r', ((s.setRelay r relay).relays r').closed = false → K' ≠ some r' →
      (s.relays r').closed = false ∧ K ≠ some r')
    (bound : ∀ d, relay.routing = .syncing d ∨ relay.routing = .returning d → d < s.connCount)
    (unrouted : relay.routing ≠ .done → (s.relays r).down = none)
    (routed : relay.closed = false → K' ≠ some r → (s.relays r).down = none →
      relay.routing ≠ .done) :
    Links K' (s.setRelay r relay) := by
  have origin := relays_part RelayRef.origin origin
  have frame := relays_part RelayRef.frame frame
  have down := relays_part RelayRef.down down
  have downId := relays_part RelayRef.downId downId
  constructor
  all_goals try simp only [origin, frame, down, downId]
  case relayBound =>
    intro r' later
    have before := links.relayBound r' later
    dsimp only [setRelay]
    grind
  case originBound => exact links.originBound
  case downBound => exact links.downBound
  case routeBound =>
    intro r' d
    have before := links.routeBound r' d
    dsimp only [setRelay]
    grind
  case served_of =>
    intro c id r' found
    obtain ⟨origin, frame, isNamed⟩ := links.served_of c id r' found
    exact ⟨origin, frame, named r' isNamed⟩
  case of_open =>
    intro r' isOpen other
    exact links.of_open r' (opened r' isOpen other).1 (opened r' isOpen other).2
  case refs_of =>
    intro d k r' found
    obtain ⟨down, downId, isNamed⟩ := links.refs_of d k r' found
    exact ⟨down, downId, named r' isNamed⟩
  case of_down =>
    intro r' d isOpen other
    exact links.of_down r' d (opened r' isOpen other).1 (opened r' isOpen other).2
  case downId => exact links.downId
  case down_inj => exact links.down_inj
  case routed =>
    intro r' isOpen other
    have before := links.routed r'
    have kept := opened r' isOpen other
    dsimp only [setRelay] at isOpen ⊢
    grind
  case unrouted =>
    intro r'
    have before := links.unrouted r'
    dsimp only [setRelay]
    grind

/-- A relay changes in what calls do not depend on, closes, or is not waited for any more. -/
theorem calls_putRelay (calls : Calls K s) {K' : Option RelayId} {r : RelayId} {relay : RelayRef P}
    (down : relay.down = (s.relays r).down) (sameCalls : relay.calls = (s.relays r).calls)
    (closed : (s.relays r).closed = true → relay.closed = true)
    (waiters : ∀ t ∈ relay.waiters, t ∈ (s.relays r).waiters)
    (awaited : ∀ t ∈ (s.relays r).waiters, (s.tasks t).phase = .waiting → t ∈ relay.waiters)
    (named : ∀ r', s.Named K r' → (s.setRelay r relay).Named K' r') :
    Calls K' (s.setRelay r relay) := by
  have downs := relays_part RelayRef.down down
  have callsAt := relays_part RelayRef.calls sameCalls
  constructor
  all_goals try simp only [downs, callsAt, SentOn]
  case taskBound => exact calls.taskBound
  case relayBound => exact calls.relayBound
  case waiting =>
    intro t phase
    obtain ⟨r', relay', member, unsent⟩ := calls.waiting t phase
    have still := awaited t
    dsimp only [setRelay] at phase ⊢
    exact ⟨r', relay', by grind, unsent⟩
  case waiters_of =>
    intro r' t member
    obtain ⟨relay', unopened, isNamed⟩ := calls.waiters_of r' t (by
      dsimp only [setRelay] at member
      grind)
    exact ⟨relay', unopened, named r' isNamed⟩
  case ready =>
    intro t phase
    obtain ⟨r', relay', unsent, done⟩ := calls.ready t phase
    dsimp only [setRelay]
    exact ⟨r', relay', unsent, by grind⟩
  case running => exact calls.running
  case forwarded => exact calls.forwarded
  case callKeys => exact calls.callKeys
  case calls_of =>
    intro r' id t found
    obtain ⟨relay', frame, phase, isNamed⟩ := calls.calls_of r' id t found
    exact ⟨relay', frame, phase, named r' isNamed⟩
  case relayedCalls_of => exact calls.relayedCalls_of
  case sentAs_of => exact calls.sentAs_of
  case sent_inj => exact calls.sent_inj

/-- What is mentioned before a relay closes is mentioned while it closes. -/
theorem named_close (fits : K = none ∨ K = some r) (r' : RelayId) (named : s.Named K r') :
    (s.setRelay r { s.relays r with closed := true }).Named (some r) r' := by
  dsimp only [Named, setRelay] at named ⊢
  grind

/-- A relay is closed, and still mentioned. -/
theorem links_close (links : Links K s) (fits : K = none ∨ K = some r) :
    Links (some r) (s.setRelay r { s.relays r with closed := true }) := by
  refine links_putRelay links rfl rfl rfl rfl (fun _ => rfl) (named_close fits) (fun r' isOpen other => ?_)
    (links.routeBound r) (links.unrouted r) fun is => by cases is
  dsimp only [setRelay] at isOpen
  grind

theorem calls_close {r : RelayId} (calls : Calls K s) (fits : K = none ∨ K = some r) :
    Calls (some r) (s.setRelay r { s.relays r with closed := true }) :=
  calls_putRelay calls rfl rfl (fun _ => rfl) (fun _ member => member) (fun _ member _ => member)
    (named_close fits)

/-- What a link serves is replaced, or the holds that it has downstream. -/
theorem links_putConn (links : Links K s) {K' : Option RelayId} {c : ConnId} {conn : Connection P}
    (closes : K' ≠ K → K = none)
    (nextId : ∀ r, (s.relays r).down = some c → (s.conns c).nextId ≤ conn.nextId)
    (fewer : ∀ id r, Assoc.get id conn.served = some (.relay r) →
      Assoc.get id (s.conns c).served = some (.relay r))
    (keeps : ∀ r, (s.relays r).closed = false → K' ≠ some r → (s.relays r).origin = c →
      Assoc.get (s.relays r).frame.id (s.conns c).served = some (.relay r) →
      Assoc.get (s.relays r).frame.id conn.served = some (.relay r))
    (fewerRefs : ∀ k r, conn.relayedRefs k = some r → (s.conns c).relayedRefs k = some r)
    (keepsRefs : ∀ r, (s.relays r).closed = false → K' ≠ some r → (s.relays r).down = some c →
      (s.conns c).relayedRefs (s.relays r).downId = some r →
      conn.relayedRefs (s.relays r).downId = some r) :
    Links K' (s.setConn c conn) := by
  have named : ∀ r, s.Named K r → s.Named K' r := by
    grind [Named]
  have unchanged : ∀ r, K' ≠ some r → K ≠ some r := by
    grind
  constructor
  all_goals dsimp only [setConn]
  case relayBound => exact links.relayBound
  case originBound => exact links.originBound
  case downBound => exact links.downBound
  case routeBound => exact links.routeBound
  case served_of =>
    intro c' id r found
    have of := links.served_of c' id r
    grind [Named]
  case of_open =>
    intro r isOpen other
    have of := links.of_open r isOpen (unchanged r other)
    grind
  case refs_of =>
    intro d k r found
    have of := links.refs_of d k r
    grind [Named]
  case of_down =>
    intro r d isOpen other down
    have of := links.of_down r d isOpen (unchanged r other) down
    grind
  case downId =>
    intro r d
    have below := links.downId r d
    have grows := nextId r
    grind
  case down_inj => exact links.down_inj
  case routed => exact fun r isOpen other => links.routed r isOpen (unchanged r other)
  case unrouted => exact links.unrouted

/-- Its hold is taken from its origin. -/
theorem links_eraseServed (links : Links (some r) s) (own : s.Own r) :
    Links (some r) (s.setConn (s.relays r).origin { s.conns (s.relays r).origin with
      served := Assoc.erase (s.relays r).frame.id (s.conns (s.relays r).origin).served }) := by
  refine links_putConn links (absurd rfl) (fun _ _ => Nat.le_refl _) (fun id r' found => ?_)
    (fun r' _ other origin found => ?_) (fun _ _ found => found) fun _ _ _ _ found => found
  · grind [Assoc.get_erase]
  · have mine := own r'
    grind [Assoc.get_erase]

/-- Its hold downstream is forgotten. -/
theorem links_eraseRef {d : ConnId} (links : Links (some r) s) (down : (s.relays r).down = some d) :
    Links (some r) (s.setConn d { s.conns d with
      relayedRefs := update (s.conns d).relayedRefs (s.relays r).downId none }) := by
  refine links_putConn links (absurd rfl) (fun _ _ => Nat.le_refl _) (fun _ _ found => found)
    (fun _ _ _ _ found => found) (fun k r' found => ?_) fun r' _ other down' found => ?_
  · grind
  · have apart := links.down_inj r' r d down' down
    grind

/-- A relay that closed and is not mentioned is like any closed one. -/
theorem links_closed (links : Links (some r) s) (closed : (s.relays r).closed = true)
    (unserved : ∀ c id, Assoc.get id (s.conns c).served ≠ some (.relay r))
    (unheld : ∀ d k, (s.conns d).relayedRefs k ≠ some r) : Links none s := by
  refine { links with served_of := ?served_of, of_open := ?of_open, refs_of := ?refs_of,
                      of_down := ?of_down, routed := ?routed }
  case served_of =>
    intro c id r' found
    have of := links.served_of c id r' found
    grind [Named]
  case of_open =>
    intro r' isOpen _
    exact links.of_open r' isOpen (by grind)
  case refs_of =>
    intro d k r' found
    have of := links.refs_of d k r' found
    grind [Named]
  case of_down =>
    intro r' d isOpen _ down
    exact links.of_down r' d isOpen (by grind) down
  case routed =>
    intro r' isOpen _ down
    exact links.routed r' isOpen (by grind) down

theorem calls_closed (calls : Calls (some r) s) (uncalled : (s.relays r).calls = [])
    (unawaited : (s.relays r).waiters = []) : Calls none s := by
  refine { calls with waiters_of := fun r' t member => ?_, calls_of := fun r' id t found => ?_ }
  · have waits := calls.waiters_of r' t member
    grind [Named]
  · have call := calls.calls_of r' id t found
    grind [Named, Assoc.get_nil]

theorem settle_self (s : Host P) (t : TaskId) (outcome : Outcome) :
    ∃ o, ((s.settle t outcome).tasks t).phase = .settled o := by
  unfold settle
  split
  · rename_i settled phase
    exact ⟨settled, phase⟩
  · exact ⟨outcome, by simp only [setTask, update_self]⟩

theorem settle_keeps (t' : TaskId) (outcome : Outcome)
    (settled : ∃ outcome, (s.tasks t).phase = .settled outcome) :
    ∃ o, ((s.settle t' outcome).tasks t).phase = .settled o := by
  rcases eq_or_ne t t' with rfl | other
  · exact settle_self s t outcome
  · unfold settle
    split
    · exact settled
    · simpa only [setTask, update_of_ne other] using settled

theorem settleAll_keeps (settled : ∃ outcome, (s.tasks t).phase = .settled outcome) :
    ∃ o, ((list.foldl (fun s t => s.settle t outcome) s).tasks t).phase = .settled o := by
  induction list generalizing s with
  | nil => exact settled
  | cons t' rest ih => exact ih (settle_keeps t' outcome settled)

/-- The calls that wait for a relay are rejected. -/
theorem settleAll_settles (outcome : Outcome) (list : List TaskId) :
    ∀ t ∈ list, ∃ o, ((list.foldl (fun s t => s.settle t outcome) s).tasks t).phase =
      .settled o := by
  induction list generalizing s with
  | nil => exact fun t member => by cases member
  | cons t' rest ih =>
    intro t member
    rcases List.mem_cons.mp member with rfl | later
    · exact settleAll_keeps outcome rest (settle_self s t outcome)
    · exact ih t later

theorem settle_relays (s : Host P) (t : TaskId) (outcome : Outcome) :
    (s.settle t outcome).relays = s.relays := by
  unfold settle
  split <;> rfl

theorem settleAll_relays (s : Host P) :
    (list.foldl (fun s t => s.settle t outcome) s).relays = s.relays := by
  induction list generalizing s with
  | nil => rfl
  | cons t rest ih => exact (ih _).trans (settle_relays s t outcome)

theorem calls_settleAll (calls : Calls K s) (mine : ∀ t ∈ list, t ∈ (s.relays r).waiters) :
    Calls K (list.foldl (fun s t => s.settle t outcome) s) := by
  induction list generalizing s with
  | nil => exact calls
  | cons t rest ih =>
    obtain ⟨relay, unopened, -⟩ := calls.waiters_of r t (mine t List.mem_cons_self)
    refine ih (calls_settle calls outcome fun phase => ?_) fun t' member => ?_
    · obtain ⟨r', d, k, relay', down, -⟩ := calls.forwarded t phase
      rw [relay] at relay'
      cases relay'
      rw [unopened] at down
      cases down
    · rw [settle_relays]
      exact mine t' (List.mem_cons_of_mem t member)

/-- Nobody waits for a relay any more. -/
theorem calls_noWaiters {r : RelayId} (calls : Calls K s)
    (settled : ∀ t ∈ (s.relays r).waiters, ∃ outcome, (s.tasks t).phase = .settled outcome) :
    Calls K (s.setRelay r { s.relays r with waiters := [] }) := by
  refine calls_putRelay calls rfl rfl (fun is => is) (fun t member => by cases member)
    (fun t member phase => ?_) fun r' named => ?_
  · obtain ⟨outcome, is⟩ := settled t member
    rw [phase] at is
    cases is
  · dsimp only [Named, setRelay] at named ⊢
    grind

/-- A link loses calls that no relay has sent down it. -/
theorem calls_putConn (calls : Calls K s) {c : ConnId} {conn : Connection P}
    (fewer : ∀ k t, conn.relayedCalls k = some t → (s.conns c).relayedCalls k = some t)
    (kept : ∀ r k t, (s.relays r).down = some c → s.Named K r →
      (s.conns c).relayedCalls k = some t → conn.relayedCalls k = some t)
    (nextId : ∀ r, (s.relays r).down = some c → (s.conns c).nextId ≤ conn.nextId) :
    Calls K (s.setConn c conn) := by
  refine { calls with forwarded := fun t phase => ?_, relayedCalls_of := fun d k t found => ?_
                      sentAs_of := fun t k sent => ?_ }
  · obtain ⟨r, d, k, relay, down, sentAs, call, relayed⟩ := calls.forwarded t phase
    have still := kept r k t
    have named := (calls.calls_of r _ t call).2.2.2
    refine ⟨r, d, k, relay, down, sentAs, call, ?_⟩
    dsimp only [setConn]
    grind
  · have before := fewer k t
    refine calls.relayedCalls_of d k t ?_
    dsimp only [setConn] at found
    grind
  · obtain ⟨r, d, relay, down, below⟩ := calls.sentAs_of t k sent
    have grows := nextId r
    refine ⟨r, d, relay, down, ?_⟩
    dsimp only [setConn]
    grind

/-- A link changes nothing that calls depend on. -/
theorem calls_setConn (calls : Calls K s) {c : ConnId} {conn : Connection P}
    (relayedCalls : conn.relayedCalls = (s.conns c).relayedCalls)
    (nextId : (s.conns c).nextId ≤ conn.nextId) : Calls K (s.setConn c conn) :=
  calls_putConn calls (fun k t found => by rw [← relayedCalls]; exact found)
    (fun _ k t _ _ found => by rw [relayedCalls]; exact found) fun _ _ => nextId

theorem calls_unserve (calls : Calls K s) (r : RelayId) : Calls K (s.unserve r) := by
  unfold unserve
  dsimp only
  split
  · exact calls_setConn calls rfl (Nat.le_refl _)
  · exact calls

theorem calls_unhold (calls : Calls K s) (r : RelayId) (release : Bool) :
    Calls K (s.unhold r release) := by
  unfold unhold
  dsimp only
  split
  · split
    · refine calls_send ?_ _ _
      exact calls_setConn calls rfl (Nat.le_refl _)
    · exact calls_setConn calls rfl (Nat.le_refl _)
  · exact calls

theorem calls_rejectWaiters (calls : Calls K s) (r : RelayId) (error : WireError) :
    Calls K (s.rejectWaiters r error) := by
  unfold rejectWaiters
  refine calls_noWaiters (calls_settleAll _ _ calls fun t member => member) ?_
  rw [settleAll_relays]
  exact settleAll_settles _ _

theorem unserve_relays (s : Host P) (r : RelayId) : (s.unserve r).relays = s.relays := by
  unfold unserve
  dsimp only
  split <;> rfl

theorem unhold_relays (s : Host P) (r : RelayId) (release : Bool) :
    (s.unhold r release).relays = s.relays := by
  unfold unhold
  dsimp only
  split
  · split
    · exact send_relays ..
    · rfl
  · rfl

theorem rejectWaiters_relays (s : Host P) (r : RelayId) (error : WireError) :
    (s.rejectWaiters r error).relays = update s.relays r { s.relays r with waiters := [] } := by
  unfold rejectWaiters
  dsimp only [setRelay]
  rw [settleAll_relays]

theorem settle_conns (s : Host P) (t : TaskId) (outcome : Outcome) :
    (s.settle t outcome).conns = s.conns := by
  unfold settle
  split <;> rfl

theorem rejectWaiters_conns (s : Host P) (r : RelayId) (error : WireError) :
    (s.rejectWaiters r error).conns = s.conns := by
  unfold rejectWaiters
  dsimp only [setRelay]
  generalize (s.relays r).waiters = list
  induction list generalizing s with
  | nil => rfl
  | cons t rest ih => exact (ih _).trans (settle_conns s t _)

/-! ### What a closing relay leaves -/

theorem links_unserve (links : Links (some r) s) (own : s.Own r) :
    Links (some r) (s.unserve r) ∧
      ∀ c id, Assoc.get id ((s.unserve r).conns c).served ≠ some (.relay r) := by
  unfold unserve
  dsimp only
  split
  · refine ⟨links_eraseServed links own, fun c id found => ?_⟩
    have of := links.served_of c id r
    dsimp only [setConn] at found
    grind [Assoc.get_erase]
  · rename_i absent
    refine ⟨links, fun c id found => ?_⟩
    obtain ⟨rfl, rfl, -⟩ := links.served_of c id r found
    exact absent r found

theorem links_send (links : Links K s) (c : ConnId) (frame : Frame P) :
    Links K (s.send c frame) := (callsOnly_send s c frame).links links

theorem links_unhold (links : Links (some r) s) (release : Bool) :
    Links (some r) (s.unhold r release) ∧
      ∀ d k, ((s.unhold r release).conns d).relayedRefs k ≠ some r := by
  unfold unhold
  dsimp only
  split
  · rename_i down isDown
    have gone : ∀ d k, ((s.setConn down { s.conns down with
        relayedRefs := update (s.conns down).relayedRefs (s.relays r).downId none }).conns
          d).relayedRefs k ≠ some r := by
      intro d k found
      have of := links.refs_of d k r
      dsimp only [setConn] at found
      rcases eq_or_ne d down with rfl | other
      · rw [update_self] at found
        change update (s.conns d).relayedRefs (s.relays r).downId none k = some r at found
        grind
      · rw [update_of_ne other] at found
        grind
    split
    · rw [send_conns]
      exact ⟨links_send (links_eraseRef links isDown) _ _, gone⟩
    · exact ⟨links_eraseRef links isDown, gone⟩
  · rename_i unopened
    refine ⟨links, fun d k found => ?_⟩
    have of := links.refs_of d k r found
    grind

theorem unhold_served (s : Host P) (r : RelayId) (release : Bool) (c : ConnId) :
    ((s.unhold r release).conns c).served = (s.conns c).served := by
  have kept : ∀ (d : ConnId) (relayedRefs : Nat → Option RelayId),
      ((s.setConn d { s.conns d with relayedRefs }).conns c).served = (s.conns c).served := by
    intro d relayedRefs
    dsimp only [setConn]
    rcases eq_or_ne c d with rfl | other
    · rw [update_self]
    · rw [update_of_ne other]
  unfold unhold
  dsimp only
  split
  · split
    · rw [send_conns]
      exact kept _ _
    · exact kept _ _
  · rfl

theorem callsOnly_settleAll (s : Host P) :
    CallsOnly s (list.foldl (fun s t => s.settle t outcome) s) :=
  CallsOnly.foldl (fun s t => callsOnly_settle s t outcome) list s

theorem links_waiters (links : Links K s) (r : RelayId) (waiters : List TaskId) :
    Links K (s.setRelay r { s.relays r with waiters }) := by
  have closed : ∀ r', ((s.setRelay r { s.relays r with waiters }).relays r').closed =
      (s.relays r').closed := relays_part RelayRef.closed rfl
  refine links_putRelay links rfl rfl rfl rfl (fun is => is) (fun r' named => ?_)
    (fun r' isOpen other => ?_) (links.routeBound r) (links.unrouted r) (links.routed r)
  · rw [Named, closed]
    exact named
  · rw [closed] at isOpen
    exact ⟨isOpen, other⟩

theorem links_rejectWaiters (links : Links K s) (r : RelayId) (error : WireError) :
    Links K (s.rejectWaiters r error) :=
  links_waiters ((callsOnly_settleAll _ _ s).links links) r []

/-- **A relay that has closed is mentioned nowhere.** -/
theorem closeRelay_open {r : RelayId} (links : Links K s) (calls : Calls K s)
    (fits : K = none ∨ K = some r) (opened : (s.relays r).closed = false) (own : s.Own r)
    (error : WireError) (releaseDown notify : Bool) :
    Links none (s.closeRelay r error releaseDown notify) ∧
      Calls none (s.closeRelay r error releaseDown notify) := by
  have links₁ := links_close links fits
  have calls₁ := calls_close calls fits
  have own₁ : (s.setRelay r { s.relays r with closed := true }).Own r := by
    simpa only [setRelay, Own, update_self] using own
  have closed₁ : ((s.setRelay r { s.relays r with closed := true }).relays r).closed = true := by
    simp only [setRelay, update_self]
  unfold closeRelay
  rw [if_neg (by simp [opened])]
  generalize s.setRelay r { s.relays r with closed := true } = s₁ at links₁ calls₁ own₁ closed₁ ⊢
  obtain ⟨calls₂, uncalled⟩ := calls_cancelCalls calls₁ r error releaseDown
  have only := callsOnly_cancelCalls s₁ r error releaseDown
  have links₂ := only.links links₁
  have own₂ : (s₁.cancelCalls r error releaseDown).Own r := by
    rw [Own, only.relays r, only.conns]
    exact own₁
  have closed₂ : ((s₁.cancelCalls r error releaseDown).relays r).closed = true := by
    rw [only.relays r]
    exact closed₁
  generalize s₁.cancelCalls r error releaseDown = s₂ at calls₂ uncalled links₂ own₂ closed₂ ⊢
  obtain ⟨links₃, unserved⟩ := links_unserve links₂ own₂
  obtain ⟨links₄, unheld⟩ := links_unhold links₃ releaseDown
  have links₅ := links_rejectWaiters links₄ r error
  have calls₅ := calls_rejectWaiters (calls_unhold (calls_unserve calls₂ r) r releaseDown) r error
  have relays : (((s₂.unserve r).unhold r releaseDown).rejectWaiters r error).relays r =
      { s₂.relays r with waiters := [] } := by
    rw [rejectWaiters_relays, unhold_relays, unserve_relays, update_self]
  have links : Links none (((s₂.unserve r).unhold r releaseDown).rejectWaiters r error) := by
    refine links_closed links₅ (by rw [relays]; exact closed₂) (fun c id => ?_) fun d k => ?_
    · rw [rejectWaiters_conns, unhold_served]
      exact unserved c id
    · rw [rejectWaiters_conns]
      exact unheld d k
  have calls : Calls none (((s₂.unserve r).unhold r releaseDown).rejectWaiters r error) :=
    calls_closed calls₅ (by rw [relays]; exact uncalled) (by rw [relays])
  dsimp only
  split
  · exact ⟨links_send links _ _, calls_send calls _ _⟩
  · exact ⟨links, calls⟩

/-- A relay that is served is the only one there. -/
theorem own_of_open (links : Links none s) (opened : (s.relays r).closed = false) : s.Own r := by
  intro r' found
  have mine := links.of_open r opened (fun is => by cases is)
  rw [found] at mine
  cases mine
  rfl

theorem inv_closeRelay (links : Links none s) (calls : Calls none s) (r : RelayId)
    (error : WireError) (releaseDown notify : Bool) :
    Links none (s.closeRelay r error releaseDown notify) ∧
      Calls none (s.closeRelay r error releaseDown notify) := by
  cases opened : (s.relays r).closed with
  | true =>
    unfold closeRelay
    rw [if_pos opened]
    exact ⟨links, calls⟩
  | false =>
    exact closeRelay_open links calls (.inl rfl) opened (own_of_open links opened) error releaseDown notify

/-! ### A hold ends -/

/-- What a link serves is replaced; `K` may no longer be served. -/
theorem links_setServed (links : Links none s) (c : ConnId) (served : List (Nat × Served P))
    (K : Option RelayId)
    (fewer : ∀ id r, Assoc.get id served = some (.relay r) →
      Assoc.get id (s.conns c).served = some (.relay r))
    (keeps : ∀ id r, Assoc.get id (s.conns c).served = some (.relay r) → K ≠ some r →
      Assoc.get id served = some (.relay r)) :
    Links K (s.setConn c { s.conns c with served }) := by
  refine links_putConn links (fun _ => rfl) (fun _ _ => Nat.le_refl _) fewer (fun r _ other _ found => ?_)
    (fun _ _ found => found) fun _ _ _ _ found => found
  exact keeps _ r found other

theorem calls_weaken (calls : Calls none s) (K : Option RelayId) : Calls K s := by
  refine { calls with waiters_of := fun r t member => ?_, calls_of := fun r id t found => ?_ }
  · obtain ⟨relay, unopened, isOpen⟩ := calls.waiters_of r t member
    exact ⟨relay, unopened, .inl (isOpen.resolve_right fun is => by cases is)⟩
  · obtain ⟨relay, frame, phase, isOpen⟩ := calls.calls_of r id t found
    exact ⟨relay, frame, phase, .inl (isOpen.resolve_right fun is => by cases is)⟩

theorem inv_dropServed (links : Links none s) (calls : Calls none s) (c : ConnId) (id : Nat)
    (release : Bool) :
    Links none (s.dropServed c id release) ∧ Calls none (s.dropServed c id release) := by
  unfold dropServed
  split
  · exact ⟨links, calls⟩
  · rename_i served found
    have fewer : ∀ id' r, Assoc.get id' (Assoc.erase id (s.conns c).served) = some (.relay r) →
        Assoc.get id' (s.conns c).served = some (.relay r) := by
      intro id' r found'
      grind [Assoc.get_erase]
    have calls' : Calls none (s.setConn c
        { s.conns c with served := Assoc.erase id (s.conns c).served }) :=
      calls_setConn calls rfl (Nat.le_refl _)
    dsimp only
    cases served with
    | «local» principal origin =>
      refine ⟨links_setServed links c _ none fewer fun id' r found' _ => ?_, calls'⟩
      grind [Assoc.get_erase]
    | relay r =>
      obtain ⟨origin, frame, isOpen⟩ := links.served_of c id r found
      have opened : (s.relays r).closed = false := isOpen.resolve_right fun is => by cases is
      have links' := links_setServed links c (Assoc.erase id (s.conns c).served) (some r) fewer
        fun id' r' found' other => by
          rw [Assoc.get_erase, if_neg]
          · exact found'
          · rintro rfl
            rw [found] at found'
            cases found'
            exact other rfl
      refine closeRelay_open links' (calls_weaken calls' (some r)) (.inr rfl) opened ?_ _ _ _
      intro r' found'
      simp only [setConn, origin, frame, update_self, Assoc.get_erase_self] at found'
      cases found'

end Host

end TianGong.Relay
