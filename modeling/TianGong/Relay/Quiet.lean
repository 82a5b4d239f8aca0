/-
**What calls that end leave in the logs.**

* `Quiet`: what ends calls and closes relays sends neither calls nor results, takes the value of a
  call from its result, and leaves no call running downstream.
* `quiet_abort`, `quiet_closeRelay`, `quiet_dropServed`, …: it is so.
-/

import TianGong.Relay.Step

namespace TianGong.Relay

open List
open Function (update update_of_ne update_self)

variable {P : Type}

variable {r : RelayId}

variable {t : TaskId}

namespace Host

variable {K : Option RelayId} {C : Option ConnId} {c : ConnId} {s : Host P}

/-- A step that sends nothing. -/
theorem sends_nothing {A : Type} {p : A → Prop} (sent : List A) :
    ∃ more, sent = sent ++ more ∧ ∀ e ∈ more, p e :=
  ⟨[], (append_nil _).symm, fun e member => by cases member⟩

/-- The call frames of a list, by link and id. -/
def callIds (sent : List (ConnId × Frame P)) : List (ConnId × Nat) :=
  sent.filterMap fun e => match e.2 with
    | .call frame => some (e.1, frame.id)
    | _ => none

/-- The result frames of a list, by link and id. -/
def resultIds (sent : List (ConnId × Frame P)) : List (ConnId × Nat) :=
  sent.filterMap fun e => match e.2 with
    | .result id _ => some (e.1, id)
    | _ => none

/-- Down link `d`, the call that relay `r` sent as `k` is over: its result came, it was cancelled,
the hold is gone, or the link closed. -/
def Over (s : Host P) (r : RelayId) (d : ConnId) (k : Nat) : Prop :=
  (∃ outcome, (d, Frame.result k outcome) ∈ s.received) ∨ (d, Frame.cancel k) ∈ s.sent ∨
    (∃ error, (d, Frame.gone (s.relays r).downId error) ∈ s.received) ∨ (s.conns d).isOpen = false

/-- What was sent and received stays so, and a link that is closed. -/
theorem Over.mono {after : Host P} {d : ConnId} {k : Nat} (isOver : s.Over r d k)
    (sent : ∀ e ∈ s.sent, e ∈ after.sent) (received : ∀ e ∈ s.received, e ∈ after.received)
    (downId : (after.relays r).downId = (s.relays r).downId)
    (isOpen : (after.conns d).isOpen = true → (s.conns d).isOpen = true) : after.Over r d k := by
  unfold Over at isOver ⊢
  rw [downId]
  rcases isOver with ⟨outcome, result⟩ | cancelled | ⟨error, gone⟩ | shut
  · exact .inl ⟨outcome, received _ result⟩
  · exact .inr (.inl (sent _ cancelled))
  · exact .inr (.inr (.inl ⟨error, received _ gone⟩))
  · exact .inr (.inr (.inr (Bool.eq_false_iff.mpr fun is => Bool.eq_false_iff.mp shut (isOpen is))))

/-- Every call on a link that is open was sent there. -/
def CallsSent (s : Host P) : Prop :=
  ∀ t d k, s.SentOn t d k → (s.conns d).isOpen = true → (d, k) ∈ callIds s.sent

/-- A frame that ends something: what is cancelled was called. -/
def Ending (s : Host P) (e : ConnId × Frame P) : Prop :=
  match e.2 with
  | .cancel k => (e.1, k) ∈ callIds s.sent
  | .release _ | .gone _ _ => True
  | _ => False

/-- What ends calls and closes relays. -/
structure Quiet (s after : Host P) : Prop where
  shrinks : Shrinks s after
  sent : ∃ more, after.sent = s.sent ++ more ∧ ∀ e ∈ more, s.Ending e
  received : after.received = s.received
  called : after.called = s.called
  values : ∀ t r value, (s.tasks t).relay = some r →
    (after.tasks t).phase = .settled (.value value) →
    (s.tasks t).phase = .settled (.value value) ∨
      ∃ d k, (s.relays r).down = some d ∧ (s.tasks t).sentAs = some k ∧
        (d, Frame.result k (.value value)) ∈ s.received
  isOver : ∀ t r d k, (s.tasks t).phase = .forwarded → (s.tasks t).relay = some r →
    (s.relays r).down = some d → (s.tasks t).sentAs = some k →
    (after.tasks t).phase = .forwarded ∨ after.Over r d k
  aborted : ∀ t, (after.tasks t).aborted = true →
    (after.tasks t).phase = .waiting ∨ (after.tasks t).phase = .forwarded →
    (s.tasks t).aborted = true ∧ (s.tasks t).phase = (after.tasks t).phase
  running : ∀ t, (after.tasks t).phase = .running → (s.tasks t).phase = .running

theorem callIds_append (sent more : List (ConnId × Frame P)) :
    callIds (sent ++ more) = callIds sent ++ callIds more := filterMap_append

theorem resultIds_append (sent more : List (ConnId × Frame P)) :
    resultIds (sent ++ more) = resultIds sent ++ resultIds more := filterMap_append

theorem callIds_ending {more : List (ConnId × Frame P)} (ending : ∀ e ∈ more, s.Ending e) :
    callIds more = [] := by
  refine List.filterMap_eq_nil_iff.mpr fun e member => ?_
  have ends := ending e member
  unfold Ending at ends
  split at ends <;> simp_all

theorem resultIds_ending {more : List (ConnId × Frame P)} (ending : ∀ e ∈ more, s.Ending e) :
    resultIds more = [] := by
  refine List.filterMap_eq_nil_iff.mpr fun e member => ?_
  have ends := ending e member
  unfold Ending at ends
  split at ends <;> simp_all

namespace Quiet

variable {after : Host P}

theorem callIds_eq (quiet : Quiet s after) : callIds after.sent = callIds s.sent := by
  obtain ⟨more, sent, ending⟩ := quiet.sent
  rw [sent, callIds_append, callIds_ending ending, append_nil]

theorem resultIds_eq (quiet : Quiet s after) : resultIds after.sent = resultIds s.sent := by
  obtain ⟨more, sent, ending⟩ := quiet.sent
  rw [sent, resultIds_append, resultIds_ending ending, append_nil]

theorem sentOn_iff (quiet : Quiet s after) (t : TaskId) (d : ConnId) (k : Nat) :
    after.SentOn t d k ↔ s.SentOn t d k := by
  have relays : ∀ r, (after.relays r).down = (s.relays r).down := by
    intro r
    rw [quiet.shrinks.relays r]
  unfold SentOn
  rw [quiet.shrinks.tasks t]
  simp only [relays]

theorem isOpen_eq (quiet : Quiet s after) (d : ConnId) :
    (after.conns d).isOpen = (s.conns d).isOpen := by
  rw [quiet.shrinks.conns d]

theorem callsSent (quiet : Quiet s after) (callsSent : CallsSent s) : CallsSent after := by
  intro t d k sentOn isOpen
  rw [quiet.callIds_eq]
  rw [quiet.isOpen_eq] at isOpen
  exact callsSent t d k ((quiet.sentOn_iff t d k).mp sentOn) isOpen

theorem over_mono (quiet : Quiet s after) {d : ConnId} {k : Nat} (isOver : s.Over r d k) :
    after.Over r d k := by
  obtain ⟨more, sent, -⟩ := quiet.sent
  refine Over.mono isOver (fun e member => ?_) (fun e member => quiet.received ▸ member)
    (by rw [quiet.shrinks.relays r]) fun isOpen => quiet.isOpen_eq d ▸ isOpen
  rw [sent]
  exact mem_append_left _ member

theorem refl (s : Host P) : Quiet s s where
  shrinks := .refl s
  sent := sends_nothing _
  received := rfl
  called := rfl
  values _ _ _ _ is := .inl is
  isOver _ _ _ _ forwarded _ _ _ := .inl forwarded
  aborted _ is _ := ⟨is, rfl⟩
  running _ is := is

theorem trans {s₁ s₂ s₃ : Host P} (first : Quiet s₁ s₂) (second : Quiet s₂ s₃) : Quiet s₁ s₃ where
  shrinks := first.shrinks.trans second.shrinks
  sent := by
    obtain ⟨more₁, sent₁, ending₁⟩ := first.sent
    obtain ⟨more₂, sent₂, ending₂⟩ := second.sent
    refine ⟨more₁ ++ more₂, by rw [sent₂, sent₁, append_assoc], fun e member => ?_⟩
    rcases List.mem_append.mp member with here | later
    · exact ending₁ e here
    · have ends := ending₂ e later
      unfold Ending at ends ⊢
      rw [first.callIds_eq] at ends
      exact ends
  received := second.received.trans first.received
  called := second.called.trans first.called
  values t r value relay is := by
    have relay₂ : (s₂.tasks t).relay = some r := by
      rw [first.shrinks.tasks t]
      exact relay
    rcases second.values t r value relay₂ is with before | ⟨d, k, down, sentAs, result⟩
    · exact first.values t r value relay before
    · rw [first.shrinks.relays r] at down
      rw [first.shrinks.tasks t] at sentAs
      rw [first.received] at result
      exact .inr ⟨d, k, down, sentAs, result⟩
  isOver t r d k forwarded relay down sentAs := by
    rcases first.isOver t r d k forwarded relay down sentAs with still | isOver
    · refine second.isOver t r d k still ?_ ?_ ?_
      · rw [first.shrinks.tasks t]
        exact relay
      · rw [first.shrinks.relays r]
        exact down
      · rw [first.shrinks.tasks t]
        exact sentAs
    · exact .inr (second.over_mono isOver)
  aborted t is phase := by
    obtain ⟨is₂, same₂⟩ := second.aborted t is phase
    rw [← same₂] at phase
    obtain ⟨is₁, same₁⟩ := first.aborted t is₂ phase
    exact ⟨is₁, same₁.trans same₂⟩
  running t is := first.running t (second.running t is)

end Quiet

/-! ### Calls end -/

/-- A call that is not forwarded settles with an error, or goes on. -/
theorem quiet_setTask {task : Task}
    (same : task = { s.tasks t with phase := task.phase, aborted := task.aborted })
    (settled : ∀ outcome, (s.tasks t).phase = .settled outcome → task.phase = .settled outcome)
    (idle : (s.tasks t).phase = .forwarded → task.phase = .forwarded)
    (values : ∀ value, task.phase = .settled (.value value) →
      (s.tasks t).phase = .settled (.value value) ∨ (s.tasks t).relay = none)
    (aborted : task.aborted = true → task.phase = .waiting ∨ task.phase = .forwarded →
      (s.tasks t).aborted = true ∧ (s.tasks t).phase = task.phase)
    (running : task.phase = .running → (s.tasks t).phase = .running) :
    Quiet s (s.setTask t task) where
  shrinks := (callsOnly_setTask same settled).shrinks
  sent := sends_nothing _
  received := rfl
  called := rfl
  values t' r value relay is := by
    rcases eq_or_ne t' t with rfl | other
    · simp only [setTask, update_self] at is
      refine (values value is).imp id fun unrelayed => ?_
      rw [unrelayed] at relay
      cases relay
    · simp only [setTask, update_of_ne other] at is
      exact .inl is
  isOver t' r d k forwarded _ _ _ := by
    rcases eq_or_ne t' t with rfl | other
    · simpa only [setTask, update_self] using .inl (idle forwarded)
    · simpa only [setTask, update_of_ne other] using .inl forwarded
  aborted t' is phase := by
    rcases eq_or_ne t' t with rfl | other
    · simp only [setTask, update_self] at is phase ⊢
      exact aborted is phase
    · simp only [setTask, update_of_ne other] at is phase ⊢
      exact ⟨is, trivial⟩
  running t' is := by
    rcases eq_or_ne t' t with rfl | other
    · simp only [setTask, update_self] at is
      exact running is
    · simpa only [setTask, update_of_ne other] using is

theorem quiet_settle {outcome : Outcome} (idle : (s.tasks t).phase ≠ .forwarded)
    (fits : (∃ error, outcome = .error error) ∨ (s.tasks t).relay = none) :
    Quiet s (s.settle t outcome) := by
  unfold settle
  split
  · exact .refl s
  · rename_i unsettled
    refine quiet_setTask rfl (fun o is => absurd is (unsettled o)) (fun is => absurd is idle)
      (fun value is => ?_) (fun _ is => ?_) fun is => by cases is
    · rcases fits with ⟨error, rfl⟩ | unrelayed
      · cases is
      · exact .inr unrelayed
    · rcases is with is | is <;> cases is

theorem quiet_send {frame : Frame P}
    (ending : (s.conns c).isOpen = true → s.Ending (c, frame)) : Quiet s (s.send c frame) where
  shrinks := (callsOnly_send s c frame).shrinks
  sent := by
    unfold send
    split
    · rename_i isOpen
      exact ⟨[(c, frame)], rfl, fun e member => by
        cases List.mem_singleton.mp member
        exact ending isOpen⟩
    · exact sends_nothing _
  received := by
    unfold send
    split <;> rfl
  called := by
    unfold send
    split <;> rfl
  values t r value _ is := by
    rw [send_tasks] at is
    exact .inl is
  isOver t r d k forwarded _ _ _ := by
    rw [send_tasks]
    exact .inl forwarded
  aborted t is _ := by
    rw [send_tasks] at is ⊢
    exact ⟨is, rfl⟩
  running t is := by
    rw [send_tasks] at is
    exact is

/-- A forwarded call settles, once it is over downstream. -/
theorem quiet_finish (calls : Calls K s) {outcome : Outcome}
    (isOver : ∀ r d k, (s.tasks t).relay = some r → (s.relays r).down = some d →
      (s.tasks t).sentAs = some k → s.Over r d k)
    (values : ∀ value, outcome = .value value → ∀ r d k, (s.tasks t).relay = some r →
      (s.relays r).down = some d → (s.tasks t).sentAs = some k →
      (d, Frame.result k (.value value)) ∈ s.received) :
    Quiet s (s.finish t outcome) := by
  by_cases phase : (s.tasks t).phase = .forwarded
  · obtain ⟨r, d, k, relay, down, sentAs, -, -, eq⟩ := finish_eq calls outcome phase
    have only := callsOnly_finish s t outcome
    have tasks : (s.finish t outcome).tasks = update s.tasks t
        { s.tasks t with phase := .settled outcome } := by
      rw [eq]
      rfl
    have sent : (s.finish t outcome).sent = s.sent := by
      rw [eq]
      rfl
    have received : (s.finish t outcome).received = s.received := by
      rw [eq]
      rfl
    refine ⟨only.shrinks, ⟨[], by rw [sent, append_nil], fun e member => by cases member⟩,
      received, by rw [eq]; rfl, fun t' r' value relay' is => ?_,
      fun t' r' d' k' forwarded relay' down' sentAs' => ?_, fun t' is phase' => ?_,
      fun t' is => ?_⟩
    · rw [tasks] at is
      rcases eq_or_ne t' t with rfl | other
      · rw [update_self] at is
        rw [relay] at relay'
        cases relay'
        exact .inr ⟨d, k, down, sentAs, values value (Phase.settled.inj is) r d k relay down sentAs⟩
      · rw [update_of_ne other] at is
        exact .inl is
    · rcases eq_or_ne t' t with rfl | other
      · right
        have before := isOver r' d' k' relay' down' sentAs'
        unfold Over at before ⊢
        rw [sent, received, only.conns d', only.relays r']
        exact before
      · left
        rw [tasks, update_of_ne other]
        exact forwarded
    · rw [tasks] at is phase' ⊢
      rcases eq_or_ne t' t with rfl | other
      · rw [update_self] at phase'
        rcases phase' with is' | is' <;> cases is'
      · rw [update_of_ne other] at is phase' ⊢
        exact ⟨is, rfl⟩
    · rw [tasks] at is
      rcases eq_or_ne t' t with rfl | other
      · rw [update_self] at is
        cases is
      · rw [update_of_ne other] at is
        exact is
  · rw [finish_idle phase]
    exact .refl s

/-- A call that is cancelled is over downstream. -/
theorem quiet_cancel (calls : Calls K s) (callsSent : CallsSent s) (error : WireError)
    {forward : Bool}
    (lost : forward = false → ∀ r d k, (s.tasks t).relay = some r → (s.relays r).down = some d →
      (s.tasks t).sentAs = some k → s.Over r d k) :
    Quiet s (s.cancel t error forward) := by
  unfold cancel
  split
  · rename_i r phase relay
    obtain ⟨r', d, k, relay', down, sentAs, -, -⟩ := calls.forwarded t phase
    rw [relay] at relay'
    cases relay'
    rw [down, sentAs]
    cases forward with
    | false =>
      exact quiet_finish calls (lost rfl) fun value is => by cases is
    | true =>
      dsimp only
      have sent : Quiet s (s.send d (.cancel k)) :=
        quiet_send fun isOpen => callsSent t d k ⟨sentAs, r, relay, down⟩ isOpen
      refine sent.trans (quiet_finish (calls_send calls _ _) ?_ fun value is => by cases is)
      intro r' d' k' relay' down' sentAs'
      rw [send_tasks, relay] at relay'
      cases relay'
      rw [send_relays, down] at down'
      cases down'
      rw [send_tasks, sentAs] at sentAs'
      cases sentAs'
      unfold Over
      rw [send_conns]
      cases isOpen : (s.conns d).isOpen with
      | false => exact .inr (.inr (.inr rfl))
      | true =>
        refine .inr (.inl ?_)
        unfold send
        rw [if_pos isOpen]
        exact mem_append_right _ (mem_singleton_self _)
  · exact .refl s

/-- The signal of a call aborts, and the call ends or does not listen. -/
theorem quiet_marked {after : Host P}
    (quiet : Quiet (s.setTask t { s.tasks t with aborted := true }) after)
    (waiting : (after.tasks t).phase ≠ .waiting) (forwarded : (after.tasks t).phase ≠ .forwarded) :
    Quiet s after := by
  have only : CallsOnly s (s.setTask t { s.tasks t with aborted := true }) :=
    callsOnly_setTask rfl fun _ is => is
  have tasks : ∀ t', (s.setTask t { s.tasks t with aborted := true }).tasks t' =
      { s.tasks t' with
        aborted := ((s.setTask t { s.tasks t with aborted := true }).tasks t').aborted } := by
    intro t'
    rcases eq_or_ne t' t with rfl | other
    · simp only [setTask, update_self]
    · simp only [setTask, update_of_ne other]
  refine ⟨only.shrinks.trans quiet.shrinks, quiet.sent, quiet.received, quiet.called,
    fun t' r value relay is => ?_, fun t' r d k phase relay down sentAs => ?_,
    fun t' is phase => ?_, fun t' is => ?_⟩
  · have values := quiet.values t' r value
    rw [tasks t'] at values
    exact values relay is
  · have isOver := quiet.isOver t' r d k
    rw [tasks t'] at isOver
    exact isOver phase relay down sentAs
  · have aborted := quiet.aborted t' is phase
    rcases eq_or_ne t' t with rfl | other
    · rcases phase with is' | is'
      · exact absurd is' waiting
      · exact absurd is' forwarded
    · simpa only [setTask, update_of_ne other] using aborted
  · have running := quiet.running t' is
    rw [tasks t'] at running
    exact running

theorem cancel_settles (calls : Calls K s) (phase : (s.tasks t).phase = .forwarded)
    (error : WireError) (forward : Bool) :
    ((s.cancel t error forward).tasks t).phase = .settled (.error error) := by
  have finished : ∀ s' : Host P, Calls K s' → s'.tasks = s.tasks →
      ((s'.finish t (.error error)).tasks t).phase = .settled (.error error) := by
    intro s' calls' tasks
    obtain ⟨r', d, k, -, -, -, -, -, eq⟩ :=
      finish_eq calls' (.error error) (by rw [tasks]; exact phase)
    rw [eq]
    simp only [setTask, update_self]
  obtain ⟨r, -, -, relay, -⟩ := calls.forwarded t phase
  unfold cancel
  rw [phase, relay]
  dsimp only
  split
  · exact finished _ (calls_send calls _ _) (send_tasks ..)
  · exact finished s calls rfl

theorem quiet_abort (calls : Calls K s) (callsSent : CallsSent s) (t : TaskId) :
    Quiet s (s.abort t) := by
  have marked : Calls K (s.setTask t { s.tasks t with aborted := true }) :=
    calls_setTask calls rfl rfl rfl (.inl rfl)
  have sent : CallsSent (s.setTask t { s.tasks t with aborted := true }) := by
    intro t' d k sentOn isOpen
    refine callsSent t' d k ?_ isOpen
    unfold SentOn setTask at sentOn
    unfold SentOn
    rcases eq_or_ne t' t with rfl | other
    · simpa only [update_self] using sentOn
    · simpa only [update_of_ne other] using sentOn
  unfold abort
  dsimp only
  split
  · rename_i phase
    have settled := settle_self (s.setTask t { s.tasks t with aborted := true }) t
      (.error abortError)
    refine quiet_marked (quiet_settle (by rw [phase]; exact fun is => by cases is)
      (.inl ⟨_, rfl⟩)) ?_ ?_
    · obtain ⟨o, is⟩ := settled
      rw [is]
      exact fun is => by cases is
    · obtain ⟨o, is⟩ := settled
      rw [is]
      exact fun is => by cases is
  · rename_i phase
    have settled := cancel_settles marked phase abortError true
    refine quiet_marked (quiet_cancel marked sent abortError fun is => by cases is) ?_ ?_
    · rw [settled]
      exact fun is => by cases is
    · rw [settled]
      exact fun is => by cases is
  · rename_i waiting forwarded
    refine quiet_marked (.refl _) (fun is => ?_) fun is => ?_
    · exact waiting is
    · exact forwarded is

/-! ### Relays close -/

/-- The hold of a relay is gone downstream, or its link is. -/
def Lost (s : Host P) (r : RelayId) : Prop :=
  ∀ d, (s.relays r).down = some d →
    (∃ error, (d, Frame.gone (s.relays r).downId error) ∈ s.received) ∨ (s.conns d).isOpen = false

theorem Quiet.lost {after : Host P} (quiet : Quiet s after) (lost : s.Lost r) : after.Lost r := by
  intro d down
  rw [quiet.shrinks.relays r] at down
  rw [quiet.received, quiet.isOpen_eq, quiet.shrinks.relays r]
  exact lost d down

theorem quiet_cancelCalls (calls : Calls K s) (callsSent : CallsSent s) (error : WireError)
    {forward : Bool} (lost : forward = false → s.Lost r) :
    Quiet s (s.cancelCalls r error forward) := by
  unfold cancelCalls
  generalize mine : (s.relays r).calls = list
  induction list generalizing s with
  | nil => exact .refl s
  | cons e rest ih =>
    have found : Assoc.get e.1 (s.relays r).calls = some e.2 := by
      rw [mine]
      exact Assoc.get_cons_self e.1 e.2 rest
    obtain ⟨relay, -, -, -⟩ := calls.calls_of r e.1 e.2 found
    have one : Quiet s (s.cancel e.2 error forward) := by
      refine quiet_cancel calls callsSent error fun is r' d k relay' down _ => ?_
      rw [relay] at relay'
      cases relay'
      rcases lost is d down with gone | shut
      · exact .inr (.inr (.inl gone))
      · exact .inr (.inr (.inr shut))
    exact one.trans (ih (calls_cancel calls e.2 error forward) (one.callsSent callsSent)
      (fun is => one.lost (lost is)) (cancel_calls calls mine error forward))

theorem quiet_setRelay {relay : RelayRef P}
    (same : relay = { s.relays r with
      closed := relay.closed, calls := relay.calls, waiters := relay.waiters })
    (closed : (s.relays r).closed = true → relay.closed = true) :
    Quiet s (s.setRelay r relay) where
  shrinks := shrinks_setRelay same closed
  sent := sends_nothing _
  received := rfl
  called := rfl
  values _ _ _ _ is := .inl is
  isOver _ _ _ _ forwarded _ _ _ := .inl forwarded
  aborted _ is _ := ⟨is, rfl⟩
  running _ is := is

theorem quiet_setConn {c : ConnId} {conn : Connection P}
    (same : conn = { s.conns c with
      served := conn.served, relayedRefs := conn.relayedRefs, relayedCalls := conn.relayedCalls })
    (served : ∀ id served, Assoc.get id conn.served = some served →
      Assoc.get id (s.conns c).served = some served) : Quiet s (s.setConn c conn) where
  shrinks := shrinks_setConn same served
  sent := sends_nothing _
  received := rfl
  called := rfl
  values _ _ _ _ is := .inl is
  isOver _ _ _ _ forwarded _ _ _ := .inl forwarded
  aborted _ is _ := ⟨is, rfl⟩
  running _ is := is

theorem quiet_unserve (s : Host P) (r : RelayId) : Quiet s (s.unserve r) := by
  unfold unserve
  dsimp only
  split
  · exact quiet_setConn rfl fun id served found => get_of_erase found
  · exact .refl s

theorem quiet_unhold (s : Host P) (r : RelayId) (release : Bool) :
    Quiet s (s.unhold r release) := by
  unfold unhold
  dsimp only
  split
  · rename_i down _
    have unheld : Quiet s (s.setConn down { s.conns down with
        relayedRefs := update (s.conns down).relayedRefs (s.relays r).downId none }) :=
      quiet_setConn rfl fun id served found => found
    split
    · exact .trans unheld (quiet_send fun _ => trivial)
    · exact unheld
  · exact .refl s

theorem quiet_rejectWaiters (calls : Calls K s) (r : RelayId) (error : WireError) :
    Quiet s (s.rejectWaiters r error) := by
  have settled : ∀ list : List TaskId, (∀ t ∈ list, t ∈ (s.relays r).waiters) →
      Quiet s (list.foldl (fun s t => s.settle t (.error error)) s) := by
    intro list
    induction list generalizing s with
    | nil => exact fun _ => .refl s
    | cons t rest ih =>
      intro mine
      obtain ⟨relay, unopened, -⟩ := calls.waiters_of r t (mine t mem_cons_self)
      have idle : (s.tasks t).phase ≠ .forwarded := by
        intro phase
        obtain ⟨r', d, k, relay', down, -⟩ := calls.forwarded t phase
        rw [relay] at relay'
        cases relay'
        rw [unopened] at down
        cases down
      refine .trans (quiet_settle idle (.inl ⟨error, rfl⟩))
        (ih (calls_settle calls _ idle) fun t' member => ?_)
      rw [settle_relays]
      exact mine t' (mem_cons_of_mem t member)
  unfold rejectWaiters
  exact .trans (settled _ fun t member => member) (quiet_setRelay rfl fun is => is)

/-- **A relay closes.** -/
theorem quiet_closeRelay (calls : Calls K s) (fits : K = none ∨ K = some r)
    (callsSent : CallsSent s) (error : WireError) {releaseDown : Bool}
    (lost : releaseDown = false → s.Lost r) (notify : Bool) :
    Quiet s (s.closeRelay r error releaseDown notify) := by
  unfold closeRelay
  split
  · exact .refl s
  · have marked : Quiet s (s.setRelay r { s.relays r with closed := true }) :=
      quiet_setRelay rfl fun _ => rfl
    have calls₁ := calls_close calls fits
    have callsSent₁ := marked.callsSent callsSent
    have lost₁ := fun is => marked.lost (lost is)
    generalize s.setRelay r { s.relays r with closed := true } = s₁
      at marked calls₁ callsSent₁ lost₁ ⊢
    obtain ⟨calls₂, -⟩ := calls_cancelCalls calls₁ r error releaseDown
    have calls₃ := calls_unhold (calls_unserve calls₂ r) r releaseDown
    have closed := marked.trans <|
      (quiet_cancelCalls calls₁ callsSent₁ error lost₁).trans <|
      (quiet_unserve _ r).trans <|
      (quiet_unhold _ r releaseDown).trans (quiet_rejectWaiters calls₃ r error)
    dsimp only
    split
    · exact closed.trans (quiet_send fun _ => trivial)
    · exact closed

theorem quiet_dropServed (calls : Calls none s) (callsSent : CallsSent s) (c : ConnId) (id : Nat)
    {release : Bool} (fits : release = false → ∀ r,
      Assoc.get id (s.conns c).served ≠ some (.relay r)) :
    Quiet s (s.dropServed c id release) := by
  unfold dropServed
  split
  · exact .refl s
  · rename_i served found
    have erased : Quiet s (s.setConn c
        { s.conns c with served := Assoc.erase id (s.conns c).served }) :=
      quiet_setConn rfl fun id served found => get_of_erase found
    have calls' : Calls none (s.setConn c
        { s.conns c with served := Assoc.erase id (s.conns c).served }) :=
      calls_setConn calls rfl (Nat.le_refl _)
    cases served with
    | «local» principal origin => exact erased
    | relay r =>
      refine erased.trans (quiet_closeRelay calls' (.inl rfl) (erased.callsSent callsSent) _
        (fun is => ?_) false)
      exact absurd found (fits is r)

end Host

end TianGong.Relay
