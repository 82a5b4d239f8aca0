/-
**Every relayed call settles once, and no cancel is lost.**

* `Relayed`: what a host keeps of the calls that it relays.
* `relayed_run`: it does in every run whose steps meet the condition.
* `not_relayed_tick`: a call and its cancel in one tick on a relay that is open.
-/

import TianGong.Relay.Logs

namespace TianGong.Relay

open Function (update)

variable {P : Type}

variable {r : RelayId} {t : TaskId}

namespace Host

variable {s after : Host P}

/-- What a call of relay `r` waits for: the route of the relay, what follows its race, its result
down a link that is open, or to be answered. -/
def Underway (s : Host P) (t : TaskId) (r : RelayId) : Prop :=
  match (s.tasks t).phase with
  | .running => False
  | .waiting => t ∈ (s.relays r).waiters ∧ (s.relays r).closed = false ∧
      (s.relays r).routing ≠ .done
  | .ready => (s.relays r).closed = true ∨ (s.relays r).down.isSome = true
  | .forwarded => ∃ d k, s.SentOn t d k ∧ (s.conns d).isOpen = true ∧
      (s.conns d).relayedCalls k = some t
  | .settled _ => True

/-- **What a host keeps of the calls that it relays.** -/
structure Relayed (s : Host P) : Prop where
  /-- Each call frame has one result or is pending, where the origin link is open, -/
  answered : ∀ c id, (s.conns c).isOpen = true →
    s.called.count (c, id) = (resultIds s.sent).count (c, id) + s.pending c id
  /-- and none has more than one result. -/
  atMost : ∀ c id, (resultIds s.sent).count (c, id) ≤ s.called.count (c, id)
  /-- A pending call gets on. -/
  underway : ∀ t r, (s.tasks t).relay = some r → s.Underway t r
  /-- A call is forwarded at most once, -/
  forwarded : (callIds s.sent).Nodup
  forwardedFor : ∀ d k, (d, k) ∈ callIds s.sent →
    ∃ t, s.SentOn t d k ∧ ∀ t', s.SentOn t' d k → t' = t
  forwardedOnce : ∀ t d k d' k', s.SentOn t d k → s.SentOn t d' k' → d' = d ∧ k' = k
  /-- and only while its relay was current. -/
  current : ∀ t k, (s.tasks t).sentAs = some k → (s.tasks t).sentCurrent = true
  /-- A forwarded call whose signal aborted, or whose origin is gone, is over downstream. -/
  cancelled : ∀ t r d k, (s.tasks t).relay = some r → s.SentOn t d k →
    (s.tasks t).aborted = true ∨ (s.conns (s.tasks t).origin).isOpen = false → s.Over r d k
  /-- A cancel follows its call. -/
  follows : ∀ before d k later, s.sent = before ++ (d, .cancel k) :: later → (d, k) ∈ callIds before
  /-- A result that comes settles its call only; -/
  apart : ∀ c id outcome next, s.step (.result c id outcome) = some next →
    ∀ t, next.tasks t = s.tasks t ∨ s.SentOn t c id
  /-- the value of a call is that of its result, -/
  values : ∀ t r value, (s.tasks t).relay = some r →
    (s.tasks t).phase = .settled (.value value) →
      ∃ d k, s.SentOn t d k ∧ (d, Frame.result k (.value value)) ∈ s.received
  /-- and a value goes to the origin of its call. -/
  answers : ∀ c id value, (c, Frame.result id (.value value)) ∈ s.sent →
    ∃ t, (s.tasks t).origin = c ∧ (s.tasks t).frame.id = id ∧
      (s.tasks t).phase = .settled (.value value)
  /-- Nothing mentions a relay that is closed. -/
  unserved : ∀ r, (s.relays r).closed = true → ∀ c id,
    Assoc.get id (s.conns c).served ≠ some (.relay r)
  unheld : ∀ r, (s.relays r).closed = true → ∀ d k, (s.conns d).relayedRefs k ≠ some r
  uncalled : ∀ r, (s.relays r).closed = true → (s.relays r).calls = [] ∧
    ∀ d k t, (s.conns d).relayedCalls k = some t → (s.tasks t).relay ≠ some r
  unawaited : ∀ r, (s.relays r).closed = true → (s.relays r).waiters = []

/-! ### Each part -/

theorem SentOn.unique {d d' : ConnId} {k k' : Nat} (sent : s.SentOn t d k)
    (sent' : s.SentOn t d' k') : d' = d ∧ k' = k := by
  obtain ⟨sentAs, r, relay, down⟩ := sent
  obtain ⟨sentAs', r', relay', down'⟩ := sent'
  rw [relay] at relay'
  cases relay'
  rw [down] at down'
  rw [sentAs] at sentAs'
  exact ⟨(Option.some.inj down').symm, (Option.some.inj sentAs').symm⟩

/-- The relay of a forwarded call is not closed. -/
theorem opened_of_forwarded (inv : Inv none s) (relay : (s.tasks t).relay = some r)
    (forwarded : (s.tasks t).phase = .forwarded) : (s.relays r).closed = false := by
  obtain ⟨r', d, k, relay', -, -, found, -⟩ := inv.calls.forwarded t forwarded
  rw [relay] at relay'
  cases relay'
  obtain ⟨-, -, -, named⟩ := inv.calls.calls_of r _ t found
  exact named.resolve_right fun is => by cases is

/-- **A call that is relayed gets on.** -/
theorem underway (inv : Inv none s) (kept : Kept none s) (relay : (s.tasks t).relay = some r) :
    s.Underway t r := by
  unfold Underway
  split
  · rename_i running
    exact kept.started t r relay running
  · rename_i waiting
    obtain ⟨r', relay', member, -⟩ := inv.calls.waiting t waiting
    rw [relay] at relay'
    cases relay'
    obtain ⟨-, down, named⟩ := inv.calls.waiters_of r t member
    have opened := named.resolve_right fun is => by cases is
    exact ⟨member, opened, inv.links.routed r opened (fun is => by cases is) down⟩
  · rename_i ready
    obtain ⟨r', relay', -, isReady⟩ := inv.calls.ready t ready
    rw [relay] at relay'
    cases relay'
    exact isReady
  · rename_i forwarded
    have opened := opened_of_forwarded inv relay forwarded
    obtain ⟨r', d, k, relay', down, sentAs, -, called⟩ := inv.calls.forwarded t forwarded
    rw [relay] at relay'
    cases relay'
    have isOpen := (kept.clean.downOpen r d opened down).resolve_right fun is => by cases is
    exact ⟨d, k, ⟨sentAs, r, relay, down⟩, isOpen, called⟩
  · trivial

/-- **No cancel is lost.** A call that is still forwarded has not aborted, and its origin is
there. -/
theorem over_of_cancelled (inv : Inv none s) (kept : Kept none s) {d : ConnId} {k : Nat}
    (relay : (s.tasks t).relay = some r) (sent : s.SentOn t d k)
    (cancelled : (s.tasks t).aborted = true ∨ (s.conns (s.tasks t).origin).isOpen = false) :
    s.Over r d k := by
  obtain ⟨sentAs, r', relay', down⟩ := sent
  rw [relay] at relay'
  cases relay'
  refine (kept.logs.isOver t r d k relay down sentAs).resolve_left fun forwarded => ?_
  rcases cancelled with aborted | gone
  · exact (kept.clean.aborted t aborted).2 forwarded
  · have current := current_of_open inv (opened_of_forwarded inv relay forwarded)
    unfold Host.current at current
    rw [inv.incoming.relayOrigin t r relay] at gone
    simp [gone] at current

/-- A result settles the call that it is for. -/
theorem apart_of_result (inv : Inv none s) {c : ConnId} {id : Nat} {outcome : Outcome}
    (stepped : s.step (.result c id outcome) = some after) (t : TaskId) :
    after.tasks t = s.tasks t ∨ s.SentOn t c id := by
  obtain ⟨isOpen, is⟩ := Option.ite_none_right_eq_some.mp stepped
  dsimp only at is
  split at is <;> cases is
  · rename_i t' found
    obtain ⟨phase, sent⟩ := inv.calls.relayedCalls_of c id t' found
    have inv' := inv_received inv (s.received ++ [(c, Frame.result id outcome)])
    obtain ⟨r, d, k, -, -, -, -, -, eq⟩ := finish_eq inv'.calls outcome phase
    rw [eq]
    rcases eq_or_ne t t' with rfl | other
    · exact .inr sent
    · left
      simp only [setTask, setConn, setRelay, Function.update_of_ne other]
  · exact .inl rfl

theorem uncalled_of_closed (inv : Inv none s) (closed : (s.relays r).closed = true) :
    (s.relays r).calls = [] ∧
      ∀ d k t, (s.conns d).relayedCalls k = some t → (s.tasks t).relay ≠ some r := by
  refine ⟨?_, fun d k t found relay => ?_⟩
  · cases calls : (s.relays r).calls with
    | nil => rfl
    | cons e rest =>
      have found : Assoc.get e.1 (s.relays r).calls = some e.2 := by
        rw [calls]
        exact Assoc.get_cons_self e.1 e.2 rest
      obtain ⟨relay, -, forwarded, -⟩ := inv.calls.calls_of r e.1 e.2 found
      have opened := opened_of_forwarded inv relay forwarded
      rw [closed] at opened
      cases opened
  · have opened := opened_of_forwarded inv relay (inv.calls.relayedCalls_of d k t found).1
    rw [closed] at opened
    cases opened

theorem unawaited_of_closed (inv : Inv none s) (closed : (s.relays r).closed = true) :
    (s.relays r).waiters = [] := by
  refine List.eq_nil_iff_forall_not_mem.mpr fun t member => ?_
  obtain ⟨-, -, named⟩ := inv.calls.waiters_of r t member
  have opened := named.resolve_right fun is => by cases is
  rw [closed] at opened
  cases opened

theorem relayed (inv : Inv none s) (kept : Kept none s) : Relayed s where
  answered c id isOpen :=
    Nat.le_antisymm (kept.logs.atLeast c id isOpen) (kept.logs.atMost c id)
  atMost c id := Nat.le_of_add_right_le (kept.logs.atMost c id)
  underway t r relay := underway inv kept relay
  forwarded := kept.logs.callOnce
  forwardedFor d k member := by
    obtain ⟨t, sentAs, r, relay, down⟩ := kept.logs.call_of d k member
    refine ⟨t, ⟨sentAs, r, relay, down⟩, fun t' sent => ?_⟩
    obtain ⟨sentAs', r', relay', down'⟩ := sent
    exact inv.calls.sent_inj t' t r' r d k sentAs' sentAs relay' relay down' down
  forwardedOnce _ _ _ _ _ sent sent' := sent.unique sent'
  current := kept.logs.current
  cancelled t r d k relay sent is := over_of_cancelled inv kept relay sent is
  follows := kept.logs.cancelled
  apart c id outcome next stepped t := apart_of_result inv stepped t
  values t r value relay is := by
    obtain ⟨d, k, down, sentAs, result⟩ := kept.logs.values t r value relay is
    exact ⟨d, k, ⟨sentAs, r, relay, down⟩, result⟩
  answers c id value member := by
    obtain ⟨t, -, origin, frame, -, phase⟩ := kept.logs.answers c id value member
    exact ⟨t, origin, frame, phase⟩
  unserved r closed c id found := by
    obtain ⟨-, -, named⟩ := inv.links.served_of c id r found
    have opened := named.resolve_right fun is => by cases is
    rw [closed] at opened
    cases opened
  unheld r closed d k found := by
    obtain ⟨-, -, named⟩ := inv.links.refs_of d k r found
    have opened := named.resolve_right fun is => by cases is
    rw [closed] at opened
    cases opened
  uncalled _ closed := uncalled_of_closed inv closed
  unawaited _ closed := unawaited_of_closed inv closed

/-! ### Runs -/

/-- **Every relayed call settles once, and no cancel is lost**, in every run in which no call goes
on after its race once its signal has aborted, and no relay opens on a link that has closed. -/
theorem relayed_run (name : Text) (principal : Option P) {events : List (Event P)}
    (ran : (start name principal).run events = some s)
    (meets : (start name principal).RunMeets events) : Relayed s := by
  obtain ⟨inv, kept⟩ := kept_run (inv_start name principal) (kept_start name principal) ran meets
  exact relayed inv kept

theorem runMeets_cons {event : Event P} {rest : List (Event P)} (here : s.Meets event)
    (stepped : s.step event = some after) (later : after.RunMeets rest) :
    s.RunMeets (event :: rest) := by
  refine ⟨here, fun next is => ?_⟩
  rw [stepped] at is
  cases is
  exact later

/-- A hold of link 0, relayed down link 1. -/
def openedRun : List (Event Text) :=
  [.accept (text "edge") false true none (some (text "alice")) none,
   .accept (text "store") false false none none none,
   .hold 0 ⟨1, text "store", .null, .null, none, none, true, false⟩ (.object false),
   .authorize 0 true, .resolve 0, .reauthorize 0 true 1, .synced 0, .returned 0]

/-- A call that is forwarded. -/
def forwardedRun : List (Event Text) :=
  openedRun ++ [.call 0 ⟨1, 1, text "read", none, none⟩ ⟨text "root", 1⟩ .runs, .resume 0]

/-- A call and its cancel, handled in one tick. -/
def tickRun : List (Event Text) :=
  openedRun ++
    [.call 0 ⟨1, 1, text "read", none, none⟩ ⟨text "root", 1⟩ .runs, .cancel 0 1, .resume 0]

theorem relayed_forwarded : ∃ s, (start (text "hub") none).run forwardedRun = some s ∧
    (s.tasks 0).sentAs = some 2 ∧ Relayed s := by
  have returned : ∀ {s : Host Text} {r : RelayId} {d : ConnId},
      (s.relays r).routing = .returning d → (s.conns d).isOpen = true → s.Meets (.returned r) := by
    intro s r d routing isOpen d' routing' _
    rw [routing] at routing'
    cases routing'
    exact isOpen
  have resumed : ∀ {s : Host Text} {t : TaskId}, (s.tasks t).aborted = false →
      s.Meets (.resume t) := fun unaborted _ _ _ => unaborted
  have meets : (start (text "hub") none).RunMeets forwardedRun :=
    runMeets_cons trivial rfl <| runMeets_cons trivial rfl <| runMeets_cons trivial rfl <|
    runMeets_cons trivial rfl <| runMeets_cons trivial rfl <| runMeets_cons trivial rfl <|
    runMeets_cons trivial rfl <| runMeets_cons (returned rfl rfl) rfl <|
    runMeets_cons trivial rfl <| runMeets_cons (resumed rfl) rfl trivial
  exact ⟨_, rfl, rfl, relayed_run (text "hub") none rfl meets⟩

/-- **A cancel in the tick of its call is lost.** -/
theorem not_relayed_tick : ∃ s, (start (text "hub") none).run tickRun = some s ∧ ¬ Relayed s := by
  refine ⟨_, rfl, fun relayed => ?_⟩
  rcases relayed.cancelled 0 0 1 2 rfl ⟨rfl, 0, rfl, rfl⟩ (.inl rfl) with
    ⟨_, result⟩ | cancelled | ⟨_, gone⟩ | shut
  · cases result
  · rcases List.mem_cons.mp cancelled with is | later
    · cases is
    · cases List.mem_singleton.mp later
  · cases gone
  · cases shut

end Host

end TianGong.Relay
