/-
**Every step of a relaying host keeps its maps.**

* `inv_openRelay`, `inv_resume`, …: what a relay and a call begin keeps the invariant.
* `inv_step`, `inv_run`: so does every step, and every run.
-/

import TianGong.Lib.Returns
import TianGong.Relay.Closing

namespace TianGong.Relay

open Function (update update_apply update_of_ne update_self)
open Returns
open List Option

attribute [local grind =] update_apply

variable {P : Type}

variable {d : ConnId}

variable {t : TaskId}

variable {r : RelayId} {routing : Routing} {relay : RelayRef P}

namespace Host

variable {K : Option RelayId} {C : Option ConnId} {c : ConnId} {s : Host P}

theorem inv_act (inv : Inv C s) (c : ConnId) (act : Act P) : Inv C (s.act c act) :=
  ⟨{ inv.links with }, { inv.calls with }, { inv.incoming with }, { inv.opened with }⟩

/-! ### A route goes on -/

/-- A relay changes nothing that calls depend on. -/
theorem calls_setRelay (calls : Calls K s)
    (same : relay = { s.relays r with
      routing := relay.routing, stateWanted := relay.stateWanted }) :
    Calls K (s.setRelay r relay) := by
  refine calls_putRelay calls (by rw [same]) (by rw [same]) (fun is => by rw [same]; exact is)
    (by rw [same]; exact fun _ member => member) (by rw [same]; exact fun _ member _ => member)
    fun r' named => ?_
  rw [Named, relays_part RelayRef.closed (by rw [same])]
  exact named

/-- A relay changes nothing that links depend on, but the state of its route. -/
theorem links_setRelay (links : Links none s) (K : Option RelayId)
    (same : relay = { s.relays r with
      routing := relay.routing, stateWanted := relay.stateWanted })
    (bound : ∀ d, relay.routing = .syncing d ∨ relay.routing = .returning d → d < s.connCount)
    (unrouted : relay.routing ≠ .done → (s.relays r).down = none)
    (routed : (s.relays r).closed = false → K ≠ some r → (s.relays r).down = none →
      relay.routing ≠ .done) :
    Links K (s.setRelay r relay) := by
  have closed : ∀ r', ((s.setRelay r relay).relays r').closed = (s.relays r').closed :=
    relays_part RelayRef.closed (by rw [same])
  refine links_putRelay links (by rw [same]) (by rw [same]) (by rw [same]) (by rw [same])
    (fun is => by rw [same]; exact is) (fun r' named => ?_) (fun r' isOpen _ => ?_) bound unrouted
    fun isOpen => routed (by rw [same] at isOpen; exact isOpen)
  · rw [Named, closed]
    exact .inl (named.resolve_right fun is => by cases is)
  · rw [closed] at isOpen
    exact ⟨isOpen, fun is => by cases is⟩

theorem incoming_setRelay (incoming : Incoming s) (origin : relay.origin = (s.relays r).origin) :
    Incoming (s.setRelay r relay) := by
  refine { incoming with relayOrigin := fun t r' is => ?_ }
  have same := incoming.relayOrigin t r' is
  dsimp only [setRelay]
  grind

theorem opened_setRelay (opened : Opened C s) (origin : relay.origin = (s.relays r).origin)
    (generation : relay.generation = (s.relays r).generation)
    (closed : relay.closed = (s.relays r).closed) : Opened C (s.setRelay r relay) := by
  refine { opened with stamped := fun r' => ?_ }
  have stamped := opened.stamped r'
  dsimp only [setRelay]
  grind

theorem inv_setRouting (inv : Inv C s) (pending : (s.relays r).routing ≠ .done)
    (next : routing ≠ .done)
    (bound : ∀ d, routing = .syncing d ∨ routing = .returning d → d < s.connCount) :
    Inv C (s.setRouting r routing) :=
  ⟨links_setRelay inv.links none rfl bound (fun _ => inv.links.unrouted r pending)
      fun _ _ _ => next,
    calls_setRelay inv.calls rfl, incoming_setRelay inv.incoming rfl,
    opened_setRelay inv.opened rfl rfl rfl⟩

theorem inv_routeOn (inv : Inv C s) (pending : (s.relays r).routing ≠ .done)
    (next : routing ≠ .done)
    (bound : ∀ d, routing = .syncing d ∨ routing = .returning d → d < s.connCount) :
    Inv C (s.routeOn r routing) := by
  unfold routeOn
  split
  · exact inv_setRouting inv pending next bound
  · exact inv_setRouting inv pending (fun is => by cases is) fun d is => by
      rcases is with is | is <;> cases is

theorem inv_authorized (inv : Inv C s) (granted : Bool) (pending : (s.relays r).routing ≠ .done)
    (next : routing ≠ .done)
    (bound : ∀ d, routing = .syncing d ∨ routing = .returning d → d < s.connCount) :
    Inv C (s.authorized r granted routing) := by
  unfold authorized
  dsimp only
  split
  · refine inv_routeOn ?_ pending next bound
    exact ⟨{ inv.links with }, { inv.calls with }, { inv.incoming with }, { inv.opened with }⟩
  · exact inv_setRouting inv pending (fun is => by cases is) fun d is => by
      rcases is with is | is <;> cases is

/-! ### A relay opens -/

/-- The calls that wait for a relay are ready. -/
theorem resolveWaiters_eq (waiters : List TaskId) (s : Host P) :
    s.resolveWaiters waiters = { s with tasks := (s.resolveWaiters waiters).tasks } ∧
    ∀ t, (s.resolveWaiters waiters).tasks t =
        { s.tasks t with phase := ((s.resolveWaiters waiters).tasks t).phase } ∧
      ((s.tasks t).phase = .waiting ∧ t ∈ waiters ∧
          ((s.resolveWaiters waiters).tasks t).phase = .ready ∨
        ((s.resolveWaiters waiters).tasks t).phase = (s.tasks t).phase ∧
          ((s.tasks t).phase = .waiting → t ∉ waiters)) := by
  unfold resolveWaiters
  induction waiters generalizing s with
  | nil => exact ⟨rfl, fun t => ⟨rfl, .inr ⟨rfl, fun _ member => by cases member⟩⟩⟩
  | cons first rest ih =>
    rw [foldl_cons]
    split
    · rename_i waiting
      obtain ⟨same, all⟩ := ih (s.setTask first { s.tasks first with phase := .ready })
      refine ⟨same, fun t => ?_⟩
      obtain ⟨task, phase⟩ := all t
      rcases eq_or_ne t first with rfl | other
      · simp only [setTask, update_self] at task phase
        rcases phase with ⟨is, -⟩ | ⟨kept, -⟩
        · cases is
        · exact ⟨task, .inl ⟨waiting, mem_cons_self, kept⟩⟩
      · simp only [setTask, update_of_ne other] at task phase
        refine ⟨task, ?_⟩
        rcases phase with ⟨is, member, ready⟩ | ⟨kept, absent⟩
        · exact .inl ⟨is, mem_cons_of_mem first member, ready⟩
        · exact .inr ⟨kept, fun is member => absent is ((List.mem_cons.mp member).resolve_left other)⟩
    · rename_i idle
      obtain ⟨same, all⟩ := ih s
      refine ⟨same, fun t => ?_⟩
      obtain ⟨task, phase⟩ := all t
      refine ⟨task, ?_⟩
      rcases phase with ⟨is, member, ready⟩ | ⟨kept, absent⟩
      · exact .inl ⟨is, mem_cons_of_mem first member, ready⟩
      · refine .inr ⟨kept, fun is member => ?_⟩
        rcases List.mem_cons.mp member with rfl | later
        · exact idle is
        · exact absent is later

theorem links_open (links : Links (some r) s) (opened : (s.relays r).closed = false)
    (unopened : (s.relays r).down = none)
    (own : Assoc.get (s.relays r).frame.id (s.conns (s.relays r).origin).served = some (.relay r))
    (routed : (s.relays r).routing = .done) (bound : d < s.connCount) :
    Links none (s.goDown r d) := by
  constructor
  all_goals dsimp only [goDown, setConn, setRelay]
  case relayBound =>
    intro r' later
    have before := links.relayBound r' later
    grind
  case originBound =>
    intro r' before
    have origin := links.originBound r' before
    grind
  case downBound =>
    intro r' d'
    have before := links.downBound r' d'
    grind
  case routeBound =>
    intro r' d'
    have before := links.routeBound r' d'
    grind
  case served_of =>
    intro c id r' found
    have of := links.served_of c id r'
    grind [Named]
  case of_open =>
    intro r' isOpen other
    have of := links.of_open r'
    grind
  case refs_of =>
    intro d' k r' found
    have of := links.refs_of d' k r'
    rcases eq_or_ne d' d with rfl | otherConn
    · rw [update_self] at found
      change update (s.conns d').relayedRefs (s.conns d').nextId (some r) k = some r' at found
      grind [Named]
    · rw [update_of_ne otherConn] at found
      grind [Named]
  case of_down =>
    intro r' d' isOpen other down
    have of := links.of_down r' d'
    have below := links.downId r' d'
    rcases eq_or_ne d' d with rfl | otherConn
    · rw [update_self]
      show update (s.conns d').relayedRefs (s.conns d').nextId (some r) _ = some r'
      grind
    · rw [update_of_ne otherConn]
      grind
  case downId =>
    intro r' d'
    have below := links.downId r' d'
    grind
  case down_inj =>
    intro r₁ r₂ d'
    have same := links.down_inj r₁ r₂ d'
    have first := links.downId r₁ d'
    have second := links.downId r₂ d'
    grind
  case routed =>
    intro r'
    have before := links.routed r'
    grind
  case unrouted =>
    intro r'
    have before := links.unrouted r'
    grind

/-- Calls through a relay that is not open have not been sent. -/
theorem calls_unsent (calls : Calls K s) (unopened : (s.relays r).down = none)
    (relay : (s.tasks t).relay = some r) : (s.tasks t).sentAs = none := by
  cases sent : (s.tasks t).sentAs with
  | none => rfl
  | some k =>
    obtain ⟨r', d', relay', down, -⟩ := calls.sentAs_of t k sent
    rw [relay] at relay'
    cases relay'
    rw [unopened] at down
    cases down

theorem calls_open (calls : Calls K s) (unopened : (s.relays r).down = none)
    (tasks : TaskId → Task) (same : ∀ t, tasks t = { s.tasks t with phase := (tasks t).phase })
    (phases : ∀ t, (s.tasks t).phase = .waiting ∧ t ∈ (s.relays r).waiters ∧
        (tasks t).phase = .ready ∨
      (tasks t).phase = (s.tasks t).phase ∧
        ((s.tasks t).phase = .waiting → t ∉ (s.relays r).waiters)) :
    Calls K { s.goDown r d with tasks } := by
  have unforwarded := fun t => calls_unsent (t := t) calls unopened
  constructor
  all_goals dsimp only [goDown, setConn, setRelay, SentOn, Named]
  case taskBound =>
    intro t later
    have bound := calls.taskBound t later
    have phase := phases t
    rw [same t]
    grind
  case relayBound =>
    intro t r'
    rw [same t]
    exact calls.relayBound t r'
  case waiting =>
    intro t phase
    have before := calls.waiting t
    have kept := phases t
    rw [same t]
    grind
  case waiters_of =>
    intro r' t member
    have before := calls.waiters_of r' t
    rw [same t]
    grind [Named]
  case ready =>
    intro t phase
    have before := calls.ready t
    have waited := calls.waiting t
    have kept := phases t
    have of := calls.waiters_of r t
    rw [same t]
    grind
  case running =>
    intro t phase
    have before := calls.running t
    have kept := phases t
    rw [same t]
    grind
  case forwarded =>
    intro t phase
    have kept := phases t
    have forwarded : (s.tasks t).phase = .forwarded := by grind
    obtain ⟨r', d', k, relay, down, sentAs, call, relayed⟩ := calls.forwarded t forwarded
    rw [same t]
    refine ⟨r', d', k, relay, ?_, sentAs, ?_, ?_⟩
    · grind
    · grind
    · grind
  case callKeys =>
    intro r'
    have keys := calls.callKeys r'
    grind
  case calls_of =>
    intro r' id t found
    have before := calls.calls_of r' id t
    have kept := phases t
    rw [same t]
    grind [Named]
  case relayedCalls_of =>
    intro d' k t found
    have before := calls.relayedCalls_of d' k t
    have kept := phases t
    rw [same t]
    grind [SentOn]
  case sentAs_of =>
    intro t k
    have before := calls.sentAs_of t k
    rw [same t]
    grind
  case sent_inj =>
    intro t₁ t₂ r₁ r₂ d' k
    have before := calls.sent_inj t₁ t₂ r₁ r₂ d' k
    have first := unforwarded t₁
    have second := unforwarded t₂
    rw [same t₁, same t₂]
    grind

/-- `current` is what a relay that is not closed is. -/
theorem current_of_open (inv : Inv none s) (opened : (s.relays r).closed = false) :
    s.current r = true := by
  have found := inv.links.of_open r opened fun is => by cases is
  have isOpen := (inv.opened.served _ _ _ found).resolve_right fun is => by cases is
  have stamped := (inv.opened.stamped r opened).resolve_right fun is => by cases is
  unfold current
  simp only [opened, isOpen, stamped, Bool.not_false, Bool.and_self, beq_self_eq_true]

/-- The tasks of a host, whatever it sends. -/
theorem calls_withTasks {tasks : TaskId → Task} (calls : Calls K { s with tasks }) (c c' : ConnId)
    (frame : Frame P) (act : Act P) :
    Calls K { (s.send c frame).act c' act with tasks } := by
  unfold send
  split
  · exact { calls with }
  · exact { calls with }

theorem incoming_phases {tasks : TaskId → Task} (incoming : Incoming s)
    (same : ∀ t, tasks t = { s.tasks t with phase := (tasks t).phase })
    (settled : ∀ t outcome, (s.tasks t).phase = .settled outcome →
      (tasks t).phase = .settled outcome) : Incoming { s with tasks } := by
  constructor
  all_goals dsimp only
  case incoming_of =>
    intro c id t
    rw [same t]
    exact incoming.incoming_of c id t
  case of_incoming =>
    intro t
    rw [same t]
    exact incoming.of_incoming t
  case answered =>
    intro t
    rw [same t]
    intro answered
    obtain ⟨outcome, is⟩ := incoming.answered t answered
    exact ⟨outcome, settled t outcome is⟩
  case forgotten =>
    intro t
    rw [same t]
    exact incoming.forgotten t
  case relayOrigin =>
    intro t r
    rw [same t]
    exact incoming.relayOrigin t r
  case originBound =>
    intro t
    rw [same t]
    exact incoming.originBound t
  case taskBound =>
    intro t
    rw [same t]
    exact incoming.taskBound t

/-- **A relay opens.** -/
theorem inv_openRelay (links : Links (some r) s) (calls : Calls none s) (incoming : Incoming s)
    (isOpened : Opened C s) (opened : (s.relays r).closed = false)
    (unopened : (s.relays r).down = none)
    (own : Assoc.get (s.relays r).frame.id (s.conns (s.relays r).origin).served = some (.relay r))
    (routed : (s.relays r).routing = .done) (bound : d < s.connCount) :
    Inv C (s.openRelay r d) := by
  have links₁ := links_open links opened unopened own routed bound
  have incoming₁ : Incoming (s.goDown r d) := by
    unfold goDown
    refine incoming_setRelay (incoming_setConn incoming ?_ ?_) ?_ <;> rfl
  have opened₁ : Opened C (s.goDown r d) := by
    unfold goDown
    refine opened_setRelay (opened_setConn isOpened ?_ ?_ ?_ ?_) ?_ ?_ ?_ <;> rfl
  have calls₁ := fun tasks => calls_open (d := d) calls unopened tasks
  unfold openRelay
  rw [if_neg (by simp [opened])]
  dsimp only
  generalize isFrame : Frame.hold _ = frame
  generalize isAct : Act.forwarded _ _ = act
  have tasks : ((((s.goDown r d).send d frame).act (s.relays r).origin act)).tasks = s.tasks :=
    send_tasks ..
  obtain ⟨eq, phases⟩ := resolveWaiters_eq (s.relays r).waiters
    (((s.goDown r d).send d frame).act (s.relays r).origin act)
  rw [tasks] at phases
  have sent : CallsOnly (s.goDown r d) ((s.goDown r d).send d frame) := callsOnly_send ..
  rw [eq]
  refine ⟨?_, ?_, ?_, ?_⟩
  · exact { sent.links links₁ with }
  · exact calls_withTasks (calls₁ _ (fun t => (phases t).1) fun t => (phases t).2) _ _ _ _
  · have incoming₂ := sent.shrinks.incoming incoming₁
    have incoming₃ : Incoming (((s.goDown r d).send d frame).act (s.relays r).origin act) :=
      { incoming₂ with }
    refine incoming_phases incoming₃ (fun t => ?_) fun t outcome is => ?_
    · rw [tasks]
      exact (phases t).1
    · rw [tasks] at is
      rcases (phases t).2 with ⟨waiting, -⟩ | ⟨kept, -⟩
      · rw [is] at waiting
        cases waiting
      · rw [kept]
        exact is
  · exact { sent.shrinks.opened opened₁ with }

/-- What holds once a relay has its route. -/
theorem routing_done (inv : Inv none s) (r : RelayId) :
    Links (some r) (s.setRouting r .done) ∧ Calls none (s.setRouting r .done) ∧
      Incoming (s.setRouting r .done) ∧ Opened none (s.setRouting r .done) ∧
      ((s.relays r).closed = true → Links none (s.setRouting r .done)) := by
  have bound (d : ConnId) (is : Routing.done = .syncing d ∨ Routing.done = .returning d) :
      d < s.connCount := by rcases is with is | is <;> cases is
  exact ⟨links_setRelay inv.links (some r) rfl bound (absurd rfl) fun _ is => absurd rfl is,
    calls_setRelay inv.calls rfl, incoming_setRelay inv.incoming rfl,
    opened_setRelay inv.opened rfl rfl rfl, fun opened => links_setRelay inv.links none rfl bound
      (absurd rfl) fun is => by rw [opened] at is; cases is⟩

theorem setRouting_self (r : RelayId) (routing : Routing) :
    (s.setRouting r routing).relays r = { s.relays r with routing } := by
  simp only [setRouting, setRelay, update_self]

theorem inv_routed (inv : Inv none s) (returning : (s.relays r).routing = .returning d) :
    Inv none (s.routed r d) := by
  have unopened : (s.relays r).down = none :=
    inv.links.unrouted r (by rw [returning]; exact fun is => by cases is)
  obtain ⟨links, calls, incoming, isOpened, shut⟩ := routing_done inv r
  have relay := setRouting_self (s := s) r .done
  have conns : (s.setRouting r .done).conns = s.conns := rfl
  unfold routed
  dsimp only
  cases opened : (s.relays r).closed with
  | false =>
    have current : (s.setRouting r .done).current r = true := by
      have before := current_of_open inv opened
      unfold current at before ⊢
      rw [relay, conns]
      exact before
    rw [if_pos current]
    refine inv_openRelay links calls incoming isOpened ?_ ?_ ?_ ?_
      (inv.links.routeBound r d (.inr returning))
    · rw [relay]
      exact opened
    · rw [relay]
      exact unopened
    · rw [relay, conns]
      exact inv.links.of_open r opened fun is => by cases is
    · rw [relay]
  | true =>
    have stale : (s.setRouting r .done).current r = false := by
      unfold current
      rw [relay]
      simp only [opened, Bool.not_true, Bool.false_and]
    rw [stale]
    exact ⟨shut opened, calls, incoming, isOpened⟩

theorem inv_rejected (inv : Inv none s) (r : RelayId) (error : WireError) :
    Inv none (s.rejected r error) := by
  unfold rejected
  obtain ⟨links, calls, incoming, isOpened, shut⟩ := routing_done inv r
  have relay := setRouting_self (s := s) r .done
  cases opened : (s.relays r).closed with
  | false =>
    have own : (s.setRouting r .done).Own r := by
      rw [Own, relay]
      exact own_of_open inv.links opened
    have shrinks := shrinks_closeRelay (s.setRouting r .done) r error true true
    obtain ⟨links', calls'⟩ := closeRelay_open links (calls_weaken calls (some r)) (.inr rfl)
      (by rw [relay]; exact opened) own error true true
    exact ⟨links', calls', shrinks.incoming incoming, shrinks.opened isOpened⟩
  | true => exact inv_close ⟨shut opened, calls, incoming, isOpened⟩ r error true true

/-! ### Holds -/

/-- **A relay begins.** -/
theorem inv_addRelay (inv : Inv none s) {c : ConnId} {frame : HoldFrame P}
    (isOpen : (s.conns c).isOpen = true) (unserved : Assoc.get frame.id (s.conns c).served = none)
    (principal : Option P) (origin : Option Text) :
    Inv none (s.addRelay c frame principal origin) := by
  obtain ⟨links, calls, incoming, opened⟩ := inv
  have fresh := links.relayBound s.relayCount (Nat.le_refl _)
  have bound : c < s.connCount := by
    by_contra later
    have shut := opened.connBound c (Nat.le_of_not_lt later)
    rw [isOpen] at shut
    cases shut
  refine ⟨?_, ?_, ?_, ?_⟩
  · constructor
    all_goals dsimp only [addRelay, setConn, setRelay]
    case relayBound =>
      intro r later
      have before := links.relayBound r (by omega)
      have apart : r ≠ s.relayCount := by omega
      rw [update_of_ne apart]
      exact before
    case originBound =>
      intro r before
      have origin := links.originBound r
      grind
    case downBound =>
      intro r d
      have before := links.downBound r d
      grind
    case routeBound =>
      intro r d
      have before := links.routeBound r d
      grind
    case served_of =>
      intro c' id r found
      have of := links.served_of c' id r
      grind [Named, Assoc.get_set]
    case of_open =>
      intro r
      have of := links.of_open r
      grind [Assoc.get_set]
    case refs_of =>
      intro d k r found
      have of := links.refs_of d k r
      grind [Named]
    case of_down =>
      intro r d
      have of := links.of_down r d
      grind
    case downId =>
      intro r d
      have below := links.downId r d
      grind
    case down_inj =>
      intro r₁ r₂ d
      have same := links.down_inj r₁ r₂ d
      grind
    case routed =>
      intro r
      have routed := links.routed r
      grind
    case unrouted =>
      intro r
      have unrouted := links.unrouted r
      grind
  · constructor
    all_goals dsimp only [addRelay, setConn, setRelay]
    case taskBound => exact calls.taskBound
    case relayBound =>
      intro t r is
      exact Nat.lt_succ_of_lt (calls.relayBound t r is)
    case waiting =>
      intro t phase
      obtain ⟨r, relay, member, unsent⟩ := calls.waiting t phase
      have before := calls.relayBound t r relay
      exact ⟨r, relay, by grind, unsent⟩
    case waiters_of =>
      intro r t member
      have waits := calls.waiters_of r t
      grind [Named]
    case ready =>
      intro t phase
      obtain ⟨r, relay, unsent, done⟩ := calls.ready t phase
      have before := calls.relayBound t r relay
      exact ⟨r, relay, unsent, by grind⟩
    case running => exact calls.running
    case forwarded =>
      intro t phase
      obtain ⟨r, d, k, relay, down, sentAs, call, relayed⟩ := calls.forwarded t phase
      have before := calls.relayBound t r relay
      exact ⟨r, d, k, relay, by grind, sentAs, by grind, by grind⟩
    case callKeys =>
      intro r
      have keys := calls.callKeys r
      grind [nodup_nil]
    case calls_of =>
      intro r id t found
      have call := calls.calls_of r id t
      grind [Named, Assoc.get_nil]
    case relayedCalls_of =>
      intro d k t found
      have call := calls.relayedCalls_of d k t
      have before := fun r => calls.relayBound t r
      grind [SentOn]
    case sentAs_of =>
      intro t k
      have sent := calls.sentAs_of t k
      have before := fun r => calls.relayBound t r
      grind
    case sent_inj =>
      intro t₁ t₂ r₁ r₂ d k
      have same := calls.sent_inj t₁ t₂ r₁ r₂ d k
      grind
  · unfold addRelay
    refine incoming_setConn ?_ ?_ ?_
    · refine { incoming with relayOrigin := fun t r is => ?_ }
      have before := calls.relayBound t r is
      have same := incoming.relayOrigin t r is
      dsimp only [setRelay]
      rw [update_of_ne (Nat.ne_of_lt before)]
      exact same
    · rfl
    · rfl
  · constructor
    all_goals dsimp only [addRelay, setConn, setRelay]
    case connBound =>
      intro c'
      have before := opened.connBound c'
      grind
    case served =>
      intro c' id x found
      have before := opened.served c' id x
      grind
    case incoming =>
      intro c' id t
      have before := opened.incoming c' id t
      grind
    case stamped =>
      intro r
      have before := opened.stamped r
      grind

/-- A link serves an object here. -/
theorem inv_serveLocal (inv : Inv none s) {c : ConnId} {id : Nat}
    (isOpen : (s.conns c).isOpen = true) (unserved : Assoc.get id (s.conns c).served = none)
    (principal : Option P) (origin : Option Text) :
    Inv none (s.setConn c { s.conns c with
      served := Assoc.set id (.local principal origin) (s.conns c).served }) := by
  refine ⟨links_setServed inv.links c _ none (fun id' r found => ?_) fun id' r found _ => ?_,
    calls_setConn inv.calls rfl (Nat.le_refl _), incoming_setConn inv.incoming rfl rfl, ?_⟩
  · grind [Assoc.get_set]
  · grind [Assoc.get_set]
  · exact opened_putConn inv.opened (fun _ is => is) (fun is => is) (.inl rfl)
      (fun _ _ _ => .inl isOpen) fun _ _ _ => .inl isOpen

/-- **A hold of a link begins.** -/
theorem inv_onHold (inv : Inv none s) {c : ConnId} (isOpen : (s.conns c).isOpen = true)
    (frame : HoldFrame P) (acquire : Acquire) : Inv none (s.onHold c frame acquire) := by
  unfold onHold
  split
  · exact inv_closeConn inv c _
  · rename_i absent
    have unserved : Assoc.get frame.id (s.conns c).served = none := by
      simpa [Assoc.has] using absent
    dsimp only
    split
    · split
      · exact inv_send inv c _
      · exact inv_addRelay inv isOpen unserved _ _
    · split
      · exact inv_send inv c _
      · exact inv_serveLocal (inv_act inv c _) isOpen unserved _ _

/-! ### Links -/

/-- **A link is accepted.** -/
theorem inv_accept (inv : Inv none s) (name : Text) (upstream client : Bool)
    (originId : Option Text) (principal : Option P) (maxCalls : Option Nat) :
    Inv none (s.accept name upstream client originId principal maxCalls) := by
  obtain ⟨links, calls, incoming, opened⟩ := inv
  have origins : ∀ r, (s.relays r).closed = false → (s.relays r).origin < s.connCount := by
    intro r isOpen
    refine links.originBound r (Nat.lt_of_not_le fun later => ?_)
    have closed := (links.relayBound r later).1
    rw [isOpen] at closed
    cases closed
  have unheld : ∀ r, (s.relays r).down = some s.connCount → False :=
    fun r down => Nat.lt_irrefl _ (links.downBound r _ down)
  refine ⟨?_, ?_, ?_, ?_⟩
  · have more : Links none { s with connCount := s.connCount + 1 } := { links with
      originBound := fun r before => Nat.lt_succ_of_lt (links.originBound r before)
      downBound := fun r d down => Nat.lt_succ_of_lt (links.downBound r d down)
      routeBound := fun r d is => Nat.lt_succ_of_lt (links.routeBound r d is) }
    exact links_putConn more (absurd rfl) (fun r down => (unheld r down).elim)
      (fun _ _ found => by cases found)
      (fun r isOpen _ origin => absurd (origins r isOpen) (Nat.not_lt_of_le origin.ge))
      (fun _ _ found => by cases found) fun r _ _ down => (unheld r down).elim
  · have more : Calls none { s with connCount := s.connCount + 1 } := { calls with }
    exact calls_putConn more (fun _ _ found => by cases found)
      (fun r _ _ down => (unheld r down).elim) fun r down => (unheld r down).elim
  · refine { incoming with incoming_of := fun c id t found => ?_
                           of_incoming := fun t before forgotten => ?_
                           originBound := fun t before =>
                             Nat.lt_succ_of_lt (incoming.originBound t before) }
    all_goals dsimp only [accept, setConn] at *
    · have of := incoming.incoming_of c id t
      grind [Assoc.get_nil]
    · have bound := incoming.originBound t before
      have of := incoming.of_incoming t before forgotten
      rw [update_of_ne (Nat.ne_of_lt bound)]
      exact of
  · constructor
    all_goals dsimp only [accept, setConn]
    case connBound =>
      intro c later
      rw [update_of_ne (Nat.ne_of_gt later)]
      exact opened.connBound c (Nat.le_of_succ_le later)
    case served =>
      intro c id x
      have before := opened.served c id x
      grind
    case incoming =>
      intro c id t
      have before := opened.incoming c id t
      grind
    case stamped =>
      intro r isOpen
      have before := opened.stamped r isOpen
      rw [update_of_ne (Nat.ne_of_lt (origins r isOpen))]
      exact before

/-! ### Calls -/

/-- **A call frame becomes a call.** -/
theorem inv_addTask (inv : Inv none s) {c : ConnId} {frame : CallFrame}
    (isOpen : (s.conns c).isOpen = true) (unused : Assoc.get frame.id (s.conns c).incoming = none)
    {served : Served P} (found : Assoc.get frame.hold (s.conns c).served = some served)
    (root : RootRef) : Inv none (s.addTask c frame (servedRelay served) root) := by
  obtain ⟨links, calls, incoming, opened⟩ := inv
  have fresh := calls.taskBound s.taskCount (Nat.le_refl _)
  have bound : c < s.connCount := by
    by_contra later
    have shut := opened.connBound c (Nat.le_of_not_lt later)
    rw [isOpen] at shut
    cases shut
  have relayed : ∀ r, servedRelay served = some r → (s.relays r).origin = c ∧ r < s.relayCount := by
    intro r is
    cases served with
    | «local» principal origin => cases is
    | relay r' =>
      cases is
      obtain ⟨origin, -, isNamed⟩ := links.served_of c frame.hold r found
      refine ⟨origin, Nat.lt_of_not_le fun later => ?_⟩
      have closed := (links.relayBound r later).1
      have notClosed := isNamed.resolve_right fun is => by cases is
      rw [closed] at notClosed
      cases notClosed
  refine ⟨?_, ?_, ?_, ?_⟩
  · unfold addTask
    refine links_setConn ?_ ?_ ?_ ?_
    · exact { links with }
    · rfl
    · rfl
    · exact Nat.le_refl _
  · constructor
    all_goals dsimp only [addTask, setConn, setTask]
    case taskBound =>
      intro t later
      rw [update_of_ne (Nat.ne_of_gt later)]
      exact calls.taskBound t (Nat.le_of_succ_le later)
    case relayBound =>
      intro t r
      have before := calls.relayBound t r
      have here := relayed r
      grind
    case waiting =>
      intro t phase
      have before := calls.waiting t
      grind
    case waiters_of =>
      intro r t member
      have before := calls.waiters_of r t
      grind [Named]
    case ready =>
      intro t phase
      have before := calls.ready t
      grind
    case running =>
      intro t phase
      have before := calls.running t
      grind
    case forwarded =>
      intro t phase
      have forwarded : (s.tasks t).phase = .forwarded ∧ t ≠ s.taskCount := by
        grind
      obtain ⟨r, d, k, relay, down, sentAs, call, relayed'⟩ := calls.forwarded t forwarded.1
      rw [update_of_ne forwarded.2]
      exact ⟨r, d, k, relay, down, sentAs, call, by grind⟩
    case callKeys => exact calls.callKeys
    case calls_of =>
      intro r id t found
      have before := calls.calls_of r id t found
      grind [Named]
    case relayedCalls_of =>
      intro d k t found
      have before := calls.relayedCalls_of d k t
      grind [SentOn]
    case sentAs_of =>
      intro t k
      have before := calls.sentAs_of t k
      grind
    case sent_inj =>
      intro t₁ t₂ r₁ r₂ d k
      have before := calls.sent_inj t₁ t₂ r₁ r₂ d k
      grind
  · constructor
    all_goals dsimp only [addTask, setConn, setTask]
    case incoming_of =>
      intro c' id t found
      have of := incoming.incoming_of c' id t
      have before := Nat.lt_succ_self s.taskCount
      grind [Assoc.get_set]
    case of_incoming =>
      intro t before forgotten
      have of := incoming.of_incoming t
      grind [Assoc.get_set]
    case answered =>
      intro t
      have before := incoming.answered t
      grind
    case forgotten =>
      intro t
      have before := incoming.forgotten t
      grind
    case relayOrigin =>
      intro t r
      have before := incoming.relayOrigin t r
      have here := relayed r
      grind
    case originBound =>
      intro t before
      have origin := incoming.originBound t
      grind
    case taskBound =>
      intro t later
      rw [update_of_ne (Nat.ne_of_gt later)]
      exact incoming.taskBound t (Nat.le_of_succ_le later)
  · unfold addTask
    refine opened_putConn ?_ (fun _ is => is) (fun is => is) (.inl rfl) (fun _ _ _ => .inl isOpen)
      fun _ _ _ => .inl isOpen
    exact { opened with }

/-- A call waits for its relay. -/
theorem calls_wait (calls : Calls none s) (running : (s.tasks t).phase = .running)
    (relay : (s.tasks t).relay = some r) (opened : (s.relays r).closed = false)
    (unopened : (s.relays r).down = none) :
    Calls none ((s.setTask t { s.tasks t with phase := .waiting }).setRelay r
      { s.relays r with waiters := (s.relays r).waiters ++ [t] }) := by
  have unsent := calls.running t running
  constructor
  all_goals dsimp only [setTask, setRelay]
  case taskBound =>
    intro t' later
    have bound := calls.taskBound t' later
    grind
  case relayBound =>
    intro t' r'
    have bound := calls.relayBound t' r'
    grind
  case waiting =>
    intro t' phase
    have waiting := calls.waiting t'
    rcases eq_or_ne t' t with rfl | other
    · rw [update_self]
      refine ⟨r, relay, ?_, unsent⟩
      rw [update_self]
      exact mem_append_right _ (mem_singleton_self t')
    · rw [update_of_ne other] at phase ⊢
      obtain ⟨r', relay', member, unsent'⟩ := waiting phase
      refine ⟨r', relay', ?_, unsent'⟩
      grind
  case waiters_of =>
    intro r' t' member
    have waits := calls.waiters_of r' t'
    grind [Named]
  case ready =>
    intro t' phase
    have ready := calls.ready t'
    grind
  case running =>
    intro t' phase
    have running := calls.running t'
    grind
  case forwarded =>
    intro t' phase
    have forwarded : (s.tasks t').phase = .forwarded ∧ t' ≠ t := by
      grind
    obtain ⟨r', d, k, relay', down, sentAs, call, relayed⟩ := calls.forwarded t' forwarded.1
    rw [update_of_ne forwarded.2]
    exact ⟨r', d, k, relay', by grind, sentAs, by grind, relayed⟩
  case callKeys =>
    intro r'
    have keys := calls.callKeys r'
    grind
  case calls_of =>
    intro r' id t' found
    have call := calls.calls_of r' id t'
    grind [Named]
  case relayedCalls_of =>
    intro d k t' found
    have call := calls.relayedCalls_of d k t' found
    grind [SentOn]
  case sentAs_of =>
    intro t' k
    have sent := calls.sentAs_of t' k
    grind
  case sent_inj =>
    intro t₁ t₂ r₁ r₂ d k
    have same := calls.sent_inj t₁ t₂ r₁ r₂ d k
    grind

theorem inv_setTask (inv : Inv C s) {task : Task}
    (same : task = { s.tasks t with phase := task.phase, aborted := task.aborted })
    (settled : ∀ outcome, (s.tasks t).phase = .settled outcome → task.phase = .settled outcome)
    (calls : Calls none (s.setTask t task)) : Inv C (s.setTask t task) :=
  (callsOnly_setTask same settled).inv inv calls

theorem inv_relayCall (inv : Inv C s) (running : (s.tasks t).phase = .running)
    (relay : (s.tasks t).relay = some r) : Inv C (s.relayCall t r) := by
  have idle : (s.tasks t).phase ≠ .forwarded := by
    rw [running]
    exact fun is => by cases is
  have unsettled : ∀ (task : Task) outcome, (s.tasks t).phase = .settled outcome →
      task.phase = .settled outcome := by
    intro task outcome is
    rw [running] at is
    cases is
  unfold relayCall
  dsimp only
  split
  · exact inv_settle inv _ idle
  · split
    · exact inv_settle inv _ idle
    · rename_i opened
      split
      · rename_i down
        exact inv_setTask inv rfl (unsettled _) (calls_setTask inv.calls rfl rfl rfl
          (.inr (.inr ⟨running, rfl, r, relay, .inr down⟩)))
      · rename_i unopened
        have waits : Shrinks s ((s.setTask t { s.tasks t with phase := .waiting }).setRelay r
            { s.relays r with waiters := (s.relays r).waiters ++ [t] }) :=
          .trans (callsOnly_setTask rfl (unsettled _)).shrinks (shrinks_setRelay rfl fun is => is)
        have marked : CallsOnly s (s.setTask t { s.tasks t with phase := .waiting }) :=
          callsOnly_setTask rfl (unsettled _)
        refine ⟨links_waiters (marked.links inv.links) r _, ?_, waits.incoming inv.incoming,
          waits.opened inv.opened⟩
        refine calls_wait inv.calls running relay (by simpa using opened) ?_
        simpa using unopened

theorem inv_runCall (inv : Inv C s) {served : Served P} (running : (s.tasks t).phase = .running)
    (relay : (s.tasks t).relay = servedRelay served) (c : ConnId) (hold : Nat) (begin : Begin) :
    Inv C (s.runCall t c hold served begin) := by
  have idle : (s.tasks t).phase ≠ .forwarded := by
    rw [running]
    exact fun is => by cases is
  unfold runCall
  split
  · exact inv_settle inv _ idle
  · rename_i unrefused
    have acted := inv_act inv c (.ran hold ((s.servedPrincipal served).or s.principal))
    have tasks : (s.act c (.ran hold ((s.servedPrincipal served).or s.principal))).tasks =
      s.tasks := rfl
    generalize s.act c (.ran hold ((s.servedPrincipal served).or s.principal)) = s₁
      at acted tasks ⊢
    rw [← tasks] at running relay
    dsimp only
    cases begin with
    | refused error => exact (unrefused error rfl).elim
    | runs =>
      cases served with
      | «local» principal origin => exact acted
      | relay r => exact inv_relayCall acted running relay
    | aborted =>
      have marked : Inv C (s₁.setTask t { s₁.tasks t with aborted := true }) :=
        inv_setTask acted rfl (fun _ is => is) (calls_setTask acted.calls rfl rfl rfl (.inl rfl))
      cases served with
      | «local» principal origin => exact marked
      | relay r =>
        have relay : (s₁.tasks t).relay = some r := relay
        refine inv_relayCall marked ?_ ?_
        · simpa only [setTask, update_self] using running
        · simpa only [setTask, update_self] using relay

/-- **A call of a link begins.** -/
theorem inv_onCall (inv : Inv none s) {c : ConnId} (isOpen : (s.conns c).isOpen = true)
    (frame : CallFrame) (started : RootRef) (begin : Begin) :
    Inv none (s.onCall c frame started begin) := by
  unfold onCall
  split
  · exact inv_closeConn inv c _
  · rename_i absent
    have unused : Assoc.get frame.id (s.conns c).incoming = none := by
      simpa [Assoc.has] using absent
    have called : Inv none { s with called := s.called ++ [(c, frame.id)] } :=
      ⟨{ inv.links with }, { inv.calls with }, { inv.incoming with }, { inv.opened with }⟩
    dsimp only
    split
    · exact inv_send called c _
    · split
      · exact inv_send called c _
      · rename_i served found
        have added := inv_addTask called isOpen unused found
          (if (s.conns c).client then started else frame.root.getD started)
        refine inv_runCall added ?_ ?_ c frame.hold begin
        · simp only [addTask, setConn, setTask, update_self]
        · simp only [addTask, setConn, setTask, update_self]

/-- A call is forwarded. -/
theorem calls_addRelayCall (calls : Calls none s) (ready : (s.tasks t).phase = .ready)
    (relay : (s.tasks t).relay = some r) (opened : (s.relays r).closed = false)
    (down : (s.relays r).down = some d)
    (fresh : Assoc.get (s.tasks t).frame.id (s.relays r).calls = none) :
    Calls none (s.addRelayCall t r d) := by
  constructor
  all_goals dsimp only [addRelayCall, setTask, setConn, setRelay]
  case taskBound =>
    intro t' later
    have bound := calls.taskBound t' later
    grind
  case relayBound =>
    intro t' r'
    have bound := calls.relayBound t' r'
    grind
  case waiting =>
    intro t' phase
    have waiting := calls.waiting t'
    grind
  case waiters_of =>
    intro r' t' member
    have waits := calls.waiters_of r' t'
    grind [Named]
  case ready =>
    intro t' phase
    have ready := calls.ready t'
    grind
  case running =>
    intro t' phase
    have running := calls.running t'
    grind
  case forwarded =>
    intro t' phase
    rcases eq_or_ne t' t with rfl | other
    · rw [update_self]
      refine ⟨r, d, (s.conns d).nextId, relay, ?_, rfl, ?_, ?_⟩
      · grind
      · grind [Assoc.get_set]
      · rw [update_self]
        exact update_self ..
    · rw [update_of_ne other] at phase ⊢
      obtain ⟨r', d', k, relay', down', sentAs, call, relayed⟩ := calls.forwarded t' phase
      refine ⟨r', d', k, relay', ?_, sentAs, ?_, ?_⟩
      · grind
      · grind [Assoc.get_set]
      · rcases eq_or_ne d' d with rfl | otherConn
        · obtain ⟨r'', d'', relay'', down'', below⟩ := calls.sentAs_of t' k sentAs
          rw [update_self]
          show update (s.conns d').relayedCalls (s.conns d').nextId (some t) k = some t'
          grind
        · rw [update_of_ne otherConn]
          exact relayed
  case callKeys =>
    intro r'
    have keys := calls.callKeys r'
    grind [Assoc.nodup_set]
  case calls_of =>
    intro r' id t' found
    have call := calls.calls_of r' id t'
    grind [Named, Assoc.get_set]
  case relayedCalls_of =>
    intro d' k t' found
    have call := calls.relayedCalls_of d' k t'
    rcases eq_or_ne d' d with rfl | otherConn
    · rw [update_self] at found
      change update (s.conns d').relayedCalls (s.conns d').nextId (some t) k = some t' at found
      grind [SentOn]
    · rw [update_of_ne otherConn] at found
      grind [SentOn]
  case sentAs_of =>
    intro t' k
    have sent := calls.sentAs_of t' k
    grind
  case sent_inj =>
    intro t₁ t₂ r₁ r₂ d' k
    have same := calls.sent_inj t₁ t₂ r₁ r₂ d' k
    have first := calls.sentAs_of t₁ k
    have second := calls.sentAs_of t₂ k
    grind

theorem incoming_setTask (incoming : Incoming s) {task : Task}
    (same : task = { s.tasks t with
      phase := task.phase, sentAs := task.sentAs, sentCurrent := task.sentCurrent
      answered := task.answered })
    (answered : task.answered = true → ∃ outcome, task.phase = .settled outcome)
    (kept : (s.tasks t).answered = true → task.answered = true) : Incoming (s.setTask t task) := by
  have origin : task.origin = (s.tasks t).origin := by rw [same]
  have frame : task.frame = (s.tasks t).frame := by rw [same]
  have relay : task.relay = (s.tasks t).relay := by rw [same]
  have forgotten : task.forgotten = (s.tasks t).forgotten := by rw [same]
  constructor
  all_goals dsimp only [setTask]
  case incoming_of =>
    intro c id t'
    have of := incoming.incoming_of c id t'
    grind
  case of_incoming =>
    intro t'
    have of := incoming.of_incoming t'
    grind
  case answered =>
    intro t'
    have before := incoming.answered t'
    grind
  case forgotten =>
    intro t'
    have before := incoming.forgotten t'
    grind
  case relayOrigin =>
    intro t' r
    have before := incoming.relayOrigin t' r
    grind
  case originBound =>
    intro t' bound
    have before := incoming.originBound t' bound
    grind
  case taskBound =>
    intro t' later
    have before := incoming.taskBound t' later
    grind

/-- A call that has not settled is that of its link. -/
theorem own_incoming (inv : Inv none s) (relay : (s.tasks t).relay = some r)
    (opened : (s.relays r).closed = false)
    (unsettled : ∀ outcome, (s.tasks t).phase ≠ .settled outcome) :
    Assoc.get (s.tasks t).frame.id (s.conns (s.relays r).origin).incoming = some t := by
  have found := inv.links.of_open r opened fun is => by cases is
  have isOpen := (inv.opened.served _ _ _ found).resolve_right fun is => by cases is
  have origin := inv.incoming.relayOrigin t r relay
  have bound : t < s.taskCount := by
    refine Nat.lt_of_not_le fun later => ?_
    obtain ⟨outcome, is⟩ := (inv.calls.taskBound t later).1
    exact unsettled outcome is
  have unforgotten : (s.tasks t).forgotten = false := by
    refine Bool.eq_false_iff.mpr fun forgotten => ?_
    obtain ⟨outcome, is⟩ := inv.incoming.answered t (inv.incoming.forgotten t forgotten)
    exact unsettled outcome is
  rw [← origin] at isOpen ⊢
  exact inv.incoming.of_incoming t bound unforgotten isOpen

/-- A call that is ready has not been forwarded. -/
theorem fresh_call (inv : Inv none s) (ready : (s.tasks t).phase = .ready)
    (relay : (s.tasks t).relay = some r) (opened : (s.relays r).closed = false) :
    Assoc.get (s.tasks t).frame.id (s.relays r).calls = none := by
  refine Option.eq_none_iff_forall_not_mem.mpr fun t' found => ?_
  obtain ⟨relay', frame, phase, -⟩ := inv.calls.calls_of r _ t' found
  have mine := own_incoming inv relay opened fun outcome is => by
    rw [ready] at is
    cases is
  have other := own_incoming inv relay' opened fun outcome is => by
    rw [phase] at is
    cases is
  rw [frame, mine] at other
  cases other
  rw [ready] at phase
  cases phase

/-- The links once a call is forwarded. -/
theorem inv_addRelayCall (inv : Inv none s) (ready : (s.tasks t).phase = .ready)
    (relay : (s.tasks t).relay = some r) (opened : (s.relays r).closed = false)
    (down : (s.relays r).down = some d) : Inv none (s.addRelayCall t r d) := by
  have calls := calls_addRelayCall inv.calls ready relay opened down
    (fresh_call inv ready relay opened)
  have only : CallsOnly (s.setConn d { s.conns d with
      nextId := (s.conns d).nextId + 1
      relayedCalls := update (s.conns d).relayedCalls (s.conns d).nextId (some t) })
    ((s.setConn d { s.conns d with
      nextId := (s.conns d).nextId + 1
      relayedCalls := update (s.conns d).relayedCalls (s.conns d).nextId (some t) }).setRelay r
    { s.relays r with calls := Assoc.set (s.tasks t).frame.id t (s.relays r).calls }) :=
    callsOnly_calls _ r _
  have links := only.links (links_setConn inv.links rfl rfl (Nat.le_succ _))
  have isOpened := only.shrinks.opened (opened_setConn inv.opened rfl rfl rfl rfl)
  have incoming := only.shrinks.incoming (incoming_setConn inv.incoming rfl rfl)
  refine ⟨{ links with }, calls, ?_, { isOpened with }⟩
  refine incoming_setTask incoming rfl (fun answered => ?_) fun is => is
  obtain ⟨outcome, is⟩ := inv.incoming.answered t answered
  rw [ready] at is
  cases is

/-- **A call goes on.** -/
theorem inv_resume (inv : Inv none s) (ready : (s.tasks t).phase = .ready)
    (relay : (s.tasks t).relay = some r) : Inv none (s.resume t r) := by
  unfold resume
  dsimp only
  split
  · refine inv_settle inv _ ?_
    rw [ready]
    exact fun is => by cases is
  · rename_i notClosed
    split
    · exact inv
    · rename_i d down
      exact inv_send (inv_addRelayCall inv ready relay (by simpa using notClosed) down) d _

/-- A result is sent. -/
theorem inv_answer (inv : Inv C s) {outcome : Outcome}
    (settled : (s.tasks t).phase = .settled outcome) : Inv C (s.answer t outcome) := by
  unfold answer
  dsimp only
  refine inv_send ?_ _ _
  refine ⟨{ inv.links with }, ?_, ?_, { inv.opened with }⟩
  · exact calls_setTask inv.calls rfl rfl rfl (.inl rfl)
  · exact incoming_setTask inv.incoming rfl (fun _ => ⟨outcome, settled⟩) fun _ => rfl

/-- The id of a call is free again. -/
theorem inv_forget (inv : Inv none s) (answered : (s.tasks t).answered = true)
    (unforgotten : (s.tasks t).forgotten = false) : Inv none (s.forget t) := by
  unfold forget
  dsimp only
  refine ⟨?_, ?_, ?_, ?_⟩
  · have links : Links none (s.setTask t { s.tasks t with forgotten := true }) :=
      { inv.links with }
    exact links_setConn links rfl rfl (Nat.le_refl _)
  · refine calls_setConn ?_ rfl (Nat.le_refl _)
    exact calls_setTask inv.calls rfl rfl rfl (.inl rfl)
  · have incoming := inv.incoming
    constructor
    all_goals dsimp only [setConn, setTask]
    case incoming_of =>
      intro c id t' found
      have of := incoming.incoming_of c id t'
      grind [Assoc.get_erase]
    case of_incoming =>
      intro t' bound forgotten isOpen
      have of := incoming.of_incoming t'
      have mine := incoming.of_incoming t
      have taskBound := incoming.taskBound t
      grind [Assoc.get_erase]
    case answered =>
      intro t'
      have before := incoming.answered t'
      grind
    case forgotten =>
      intro t'
      have before := incoming.forgotten t'
      grind
    case relayOrigin =>
      intro t' r
      have before := incoming.relayOrigin t' r
      grind
    case originBound =>
      intro t' bound
      have before := incoming.originBound t' bound
      grind
    case taskBound =>
      intro t' later
      have before := incoming.taskBound t' later
      grind
  · have opened : Opened none (s.setTask t { s.tasks t with forgotten := true }) :=
      { inv.opened with }
    exact opened_putConn opened (fun _ is => is) (fun is => is) (.inl rfl) (opened.served _)
      fun id t' found => opened.incoming _ id t' (get_of_erase found)

theorem inv_wantState (inv : Inv C s) (r : RelayId) (wanted : Bool) :
    Inv C (s.wantState r wanted) := by
  unfold wantState
  dsimp only
  split
  · exact inv
  · have marked : Inv C (s.setRelay r { s.relays r with stateWanted := wanted }) :=
      ⟨links_setRelay inv.links none rfl (inv.links.routeBound r) (inv.links.unrouted r)
          (inv.links.routed r),
        calls_setRelay inv.calls rfl, incoming_setRelay inv.incoming rfl,
        opened_setRelay inv.opened rfl rfl rfl⟩
    split
    · exact inv_send marked _ _
    · exact marked

theorem inv_resync (inv : Inv C s) (r : RelayId) (m : Text) : Inv C (s.resync r m) := by
  unfold resync
  split
  · exact inv_send inv _ _
  · exact inv

/-! ### Steps -/

theorem inv_received (inv : Inv C s) (announced : List (ConnId × Frame P)) :
    Inv C { s with received := announced } :=
  ⟨{ inv.links with }, { inv.calls with }, { inv.incoming with }, { inv.opened with }⟩

/-- **One step keeps the invariant.** -/
theorem inv_step (inv : Inv none s) {event : Event P} {after : Host P}
    (stepped : s.step event = some after) : Inv none after := by
  cases event with
  | accept name upstream client originId principal maxCalls =>
    cases stepped
    exact inv_accept inv ..
  | hold c frame acquire =>
    obtain ⟨isOpen, rfl⟩ := of_guard stepped
    exact inv_onHold inv isOpen frame acquire
  | release c id =>
    obtain ⟨isOpen, rfl⟩ := of_guard stepped
    exact inv_drop inv c id true
  | call c frame started begin =>
    obtain ⟨isOpen, rfl⟩ := of_guard stepped
    exact inv_onCall inv isOpen frame started begin
  | cancel c id =>
    obtain ⟨isOpen, is⟩ := ite_none_right_eq_some.mp stepped
    split at is <;> cases is
    · exact inv_abort inv _
    · exact inv
  | wantState c hold wanted =>
    obtain ⟨isOpen, is⟩ := ite_none_right_eq_some.mp stepped
    split at is <;> cases is
    · exact inv_wantState inv _ wanted
    · exact inv
  | resync c hold m =>
    obtain ⟨isOpen, is⟩ := ite_none_right_eq_some.mp stepped
    split at is <;> cases is
    · exact inv_resync inv _ m
    · exact inv
  | result c id outcome =>
    obtain ⟨isOpen, is⟩ := ite_none_right_eq_some.mp stepped
    dsimp only at is
    split at is <;> cases is
    · exact inv_finish (inv_received inv _) _ outcome
    · exact inv_received inv _
  | gone c id error =>
    obtain ⟨isOpen, is⟩ := ite_none_right_eq_some.mp stepped
    dsimp only at is
    split at is <;> cases is
    · exact inv_close (inv_received inv _) _ error false true
    · exact inv_received inv _
  | authorize r granted =>
    obtain ⟨routing, rfl⟩ := of_guard stepped
    exact inv_authorized inv granted (by rw [routing]; exact fun is => by cases is)
      (fun is => by cases is) fun d is => by rcases is with is | is <;> cases is
  | resolve r =>
    obtain ⟨routing, rfl⟩ := of_guard stepped
    exact inv_routeOn inv (by rw [routing]; exact fun is => by cases is)
      (fun is => by cases is) fun d is => by rcases is with is | is <;> cases is
  | reauthorize r granted down =>
    obtain ⟨routing, is⟩ := ite_none_right_eq_some.mp stepped
    obtain ⟨routing, bound⟩ := routing
    cases is
    refine inv_authorized inv granted (by rw [routing]; exact fun is => by cases is)
      (fun is => by cases is) fun d is => ?_
    rcases is with is | is
    · cases is
      exact bound
    · cases is
  | synced r =>
    dsimp only [step] at stepped
    split at stepped
    · rename_i down routing
      cases stepped
      refine inv_routeOn inv (by rw [routing]; exact fun is => by cases is)
        (fun is => by cases is) fun d is => ?_
      rcases is with is | is
      · cases is
      · cases is
        exact inv.links.routeBound r down (.inl routing)
    · cases stepped
  | returned r =>
    dsimp only [step] at stepped
    split at stepped
    · rename_i down routing
      cases stepped
      exact inv_routed inv routing
    · cases stepped
  | fail r error =>
    dsimp only [step] at stepped
    split at stepped
    · cases stepped
    · cases stepped
    · rename_i notFailing notDone
      cases stepped
      exact inv_setRouting inv (fun is => notDone is) (fun is => by cases is)
        fun d is => by rcases is with is | is <;> cases is
  | rejected r =>
    dsimp only [step] at stepped
    split at stepped
    · cases stepped
      exact inv_rejected inv r _
    · cases stepped
  | resume t =>
    dsimp only [step] at stepped
    split at stepped
    · rename_i ready relay
      cases stepped
      exact inv_resume inv ready relay
    · cases stepped
  | settle t outcome =>
    dsimp only [step] at stepped
    split at stepped
    · rename_i running _
      cases stepped
      exact inv_settle inv outcome (by rw [running]; exact fun is => by cases is)
    · cases stepped
  | answer t =>
    dsimp only [step] at stepped
    split at stepped
    · rename_i settled _
      cases stepped
      exact inv_answer inv settled
    · cases stepped
  | forget t =>
    obtain ⟨answered, rfl⟩ := of_guard stepped
    exact inv_forget inv answered.1 (by simpa using answered.2)
  | abort t =>
    obtain ⟨bound, rfl⟩ := of_guard stepped
    exact inv_abort inv t
  | take c =>
    cases stepped
    exact inv_setConn inv rfl (Nat.le_succ _)
  | revoke c next =>
    obtain ⟨isOpen, rfl⟩ := of_guard stepped
    exact inv_revoke inv isOpen next
  | close c reason =>
    obtain ⟨isOpen, rfl⟩ := of_guard stepped
    exact inv_closeConn inv c reason
  | ended c id error =>
    dsimp only [step] at stepped
    split at stepped
    · cases stepped
      exact inv_send (inv_drop inv c id false) c _
    · cases stepped

/-- A host without links. -/
theorem inv_start (name : Text) (principal : Option P) : Inv none (start name principal) where
  links := by constructor <;> simp [start]
  calls := by constructor <;> simp [start]
  incoming := by constructor <;> simp [start]
  opened := by constructor <;> simp [start]

end Host

end TianGong.Relay
