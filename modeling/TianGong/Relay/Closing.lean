/-
**Closing a link, and revoking its principal.**

* `Incoming`: a link's `incoming` and its calls; `Opened`: what is open serves, and a relay that is
  not closed has the generation of its link.
-/

import TianGong.Relay.Inv

namespace TianGong.Relay

open Function (update update_apply update_of_ne update_self)

attribute [local grind =] update_apply

variable {P : Type}

variable {after : Host P} {conn : Connection P}

namespace Host

/-- What calls that end and relays that close change. -/
structure Shrinks (s after : Host P) : Prop where
  conns : ∀ c, after.conns c = { s.conns c with
    served := (after.conns c).served
    relayedRefs := (after.conns c).relayedRefs
    relayedCalls := (after.conns c).relayedCalls }
  served : ∀ c id served, Assoc.get id (after.conns c).served = some served →
    Assoc.get id (s.conns c).served = some served
  relays : ∀ r, after.relays r = { s.relays r with
    closed := (after.relays r).closed
    calls := (after.relays r).calls
    waiters := (after.relays r).waiters }
  closed : ∀ r, (s.relays r).closed = true → (after.relays r).closed = true
  tasks : ∀ t, after.tasks t =
    { s.tasks t with phase := (after.tasks t).phase, aborted := (after.tasks t).aborted }
  settled : ∀ t outcome, (s.tasks t).phase = .settled outcome →
    (after.tasks t).phase = .settled outcome
  connCount : after.connCount = s.connCount
  relayCount : after.relayCount = s.relayCount
  taskCount : after.taskCount = s.taskCount

/-- What links and calls say of one another. -/
structure Incoming (s : Host P) : Prop where
  incoming_of : ∀ c id t, Assoc.get id (s.conns c).incoming = some t →
    (s.tasks t).origin = c ∧ (s.tasks t).frame.id = id ∧ t < s.taskCount ∧
      (s.tasks t).forgotten = false
  of_incoming : ∀ t, t < s.taskCount → (s.tasks t).forgotten = false →
    (s.conns (s.tasks t).origin).isOpen = true →
    Assoc.get (s.tasks t).frame.id (s.conns (s.tasks t).origin).incoming = some t
  answered : ∀ t, (s.tasks t).answered = true → ∃ outcome, (s.tasks t).phase = .settled outcome
  forgotten : ∀ t, (s.tasks t).forgotten = true → (s.tasks t).answered = true
  relayOrigin : ∀ t r, (s.tasks t).relay = some r → (s.tasks t).origin = (s.relays r).origin
  originBound : ∀ t, t < s.taskCount → (s.tasks t).origin < s.connCount
  taskBound : ∀ t, s.taskCount ≤ t → (s.tasks t).forgotten = true

/-- A link that is not open serves nothing, and a relay that is not closed was not revoked. `C` is
a link that closes, or whose principal is revoked. -/
structure Opened (C : Option ConnId) (s : Host P) : Prop where
  connBound : ∀ c, s.connCount ≤ c → (s.conns c).isOpen = false
  served : ∀ c id served, Assoc.get id (s.conns c).served = some served →
    (s.conns c).isOpen = true ∨ C = some c
  incoming : ∀ c id t, Assoc.get id (s.conns c).incoming = some t →
    (s.conns c).isOpen = true ∨ C = some c
  stamped : ∀ r, (s.relays r).closed = false →
    (s.conns (s.relays r).origin).generation = (s.relays r).generation ∨
      C = some (s.relays r).origin

variable {K : Option RelayId} {C : Option ConnId} {c : ConnId} {s : Host P}

/-! ### What closes only shrinks -/

theorem Shrinks.refl (s : Host P) : Shrinks s s where
  conns _ := rfl
  served _ _ _ found := found
  relays _ := rfl
  closed _ is := is
  tasks _ := rfl
  settled _ _ is := is
  connCount := rfl
  relayCount := rfl
  taskCount := rfl

theorem Shrinks.trans {s₁ s₂ s₃ : Host P} (first : Shrinks s₁ s₂) (second : Shrinks s₂ s₃) :
    Shrinks s₁ s₃ where
  conns c := by
    rw [second.conns c, first.conns c]
  served c id served found := first.served c id served (second.served c id served found)
  relays r := by
    rw [second.relays r, first.relays r]
  closed r is := second.closed r (first.closed r is)
  tasks t := by
    rw [second.tasks t, first.tasks t]
  settled t outcome is := second.settled t outcome (first.settled t outcome is)
  connCount := second.connCount.trans first.connCount
  relayCount := second.relayCount.trans first.relayCount
  taskCount := second.taskCount.trans first.taskCount

theorem CallsOnly.shrinks (only : CallsOnly s after) : Shrinks s after where
  conns c := by
    rw [only.conns c]
  served c id served found := by
    rw [only.conns c] at found
    exact found
  relays r := by
    rw [only.relays r]
  closed r is := by
    rw [only.relays r]
    exact is
  tasks := only.tasks
  settled := only.settled
  connCount := only.connCount
  relayCount := only.relayCount
  taskCount := only.taskCount

theorem Shrinks.foldl {A : Type} {f : Host P → A → Host P} (one : ∀ s a, Shrinks s (f s a))
    (list : List A) (s : Host P) : Shrinks s (list.foldl f s) := by
  induction list generalizing s with
  | nil => exact .refl s
  | cons a rest ih => exact .trans (one s a) (ih _)

theorem shrinks_setRelay {r : RelayId} {relay : RelayRef P}
    (same : relay = { s.relays r with
      closed := relay.closed, calls := relay.calls, waiters := relay.waiters })
    (closed : (s.relays r).closed = true → relay.closed = true) :
    Shrinks s (s.setRelay r relay) where
  conns _ := rfl
  served _ _ _ found := found
  relays r' := by
    rcases eq_or_ne r' r with rfl | other
    · simpa only [setRelay, update_self] using same
    · simp only [setRelay, update_of_ne other]
  closed r' is := by
    rcases eq_or_ne r' r with rfl | other
    · simpa only [setRelay, update_self] using closed is
    · simpa only [setRelay, update_of_ne other] using is
  tasks _ := rfl
  settled _ _ is := is
  connCount := rfl
  relayCount := rfl
  taskCount := rfl

theorem shrinks_setConn {c : ConnId}
    (same : conn = { s.conns c with
      served := conn.served, relayedRefs := conn.relayedRefs, relayedCalls := conn.relayedCalls })
    (served : ∀ id served, Assoc.get id conn.served = some served →
      Assoc.get id (s.conns c).served = some served) :
    Shrinks s (s.setConn c conn) where
  conns c' := by
    rcases eq_or_ne c' c with rfl | other
    · simpa only [setConn, update_self] using same
    · simp only [setConn, update_of_ne other]
  served c' id served' found := by
    rcases eq_or_ne c' c with rfl | other
    · simp only [setConn, update_self] at found
      exact served id served' found
    · simpa only [setConn, update_of_ne other] using found
  relays _ := rfl
  closed _ is := is
  tasks _ := rfl
  settled _ _ is := is
  connCount := rfl
  relayCount := rfl
  taskCount := rfl

theorem get_of_erase {V : Type} {id id' : Nat} {entries : List (Nat × V)} {v : V}
    (found : Assoc.get id' (Assoc.erase id entries) = some v) : Assoc.get id' entries = some v := by
  rw [Assoc.get_erase] at found
  split at found
  · cases found
  · exact found

theorem shrinks_unserve (s : Host P) (r : RelayId) : Shrinks s (s.unserve r) := by
  unfold unserve
  dsimp only
  split
  · exact shrinks_setConn rfl fun id served found => get_of_erase found
  · exact .refl s

theorem shrinks_unhold (s : Host P) (r : RelayId) (release : Bool) :
    Shrinks s (s.unhold r release) := by
  unfold unhold
  dsimp only
  split
  · rename_i down _
    have unheld : Shrinks s (s.setConn down { s.conns down with
        relayedRefs := update (s.conns down).relayedRefs (s.relays r).downId none }) :=
      shrinks_setConn rfl fun id served found => found
    split
    · exact .trans unheld (callsOnly_send _ _ _).shrinks
    · exact unheld
  · exact .refl s

theorem shrinks_rejectWaiters (s : Host P) (r : RelayId) (error : WireError) :
    Shrinks s (s.rejectWaiters r error) := by
  unfold rejectWaiters
  exact .trans (callsOnly_settleAll _ _ s).shrinks (shrinks_setRelay rfl fun is => is)

theorem shrinks_closeRelay (s : Host P) (r : RelayId) (error : WireError)
    (releaseDown notify : Bool) : Shrinks s (s.closeRelay r error releaseDown notify) := by
  unfold closeRelay
  split
  · exact .refl s
  · have marked : Shrinks s (s.setRelay r { s.relays r with closed := true }) :=
      shrinks_setRelay rfl fun _ => rfl
    have closed := marked.trans <|
      (callsOnly_cancelCalls _ r error releaseDown).shrinks.trans <|
      (shrinks_unserve _ r).trans <|
      (shrinks_unhold _ r releaseDown).trans (shrinks_rejectWaiters _ r error)
    dsimp only
    split
    · exact closed.trans (callsOnly_send _ _ _).shrinks
    · exact closed

theorem shrinks_dropServed (s : Host P) (c : ConnId) (id : Nat) (release : Bool) :
    Shrinks s (s.dropServed c id release) := by
  unfold dropServed
  split
  · exact .refl s
  · rename_i served _
    have erased : Shrinks s (s.setConn c
        { s.conns c with served := Assoc.erase id (s.conns c).served }) :=
      shrinks_setConn rfl fun id served found => get_of_erase found
    cases served with
    | «local» principal origin => exact erased
    | relay r => exact erased.trans (shrinks_closeRelay _ r _ release false)

theorem Shrinks.incoming (shrinks : Shrinks s after) (incoming : Incoming s) : Incoming after := by
  have conns := shrinks.conns
  have tasks := shrinks.tasks
  constructor
  case incoming_of =>
    intro c id t
    rw [conns c, tasks t, shrinks.taskCount]
    exact incoming.incoming_of c id t
  case of_incoming =>
    intro t
    rw [tasks t, conns, shrinks.taskCount]
    exact incoming.of_incoming t
  case answered =>
    intro t
    rw [tasks t]
    intro answered
    obtain ⟨outcome, is⟩ := incoming.answered t answered
    exact ⟨outcome, shrinks.settled t outcome is⟩
  case forgotten =>
    intro t
    rw [tasks t]
    exact incoming.forgotten t
  case relayOrigin =>
    intro t r
    rw [tasks t, shrinks.relays r]
    exact incoming.relayOrigin t r
  case originBound =>
    intro t
    rw [tasks t, shrinks.taskCount, shrinks.connCount]
    exact incoming.originBound t
  case taskBound =>
    intro t
    rw [tasks t, shrinks.taskCount]
    exact incoming.taskBound t

theorem Shrinks.opened (shrinks : Shrinks s after) (opened : Opened C s) : Opened C after := by
  have conns := shrinks.conns
  constructor
  case connBound =>
    intro c
    rw [conns c, shrinks.connCount]
    exact opened.connBound c
  case served =>
    intro c id served found
    have before := opened.served c id served (shrinks.served c id served found)
    rw [conns c]
    exact before
  case incoming =>
    intro c id t
    rw [conns c]
    exact opened.incoming c id t
  case stamped =>
    intro r isOpen
    have before : (s.relays r).closed = false := by
      cases was : (s.relays r).closed with
      | false => rfl
      | true => exact absurd (shrinks.closed r was) (by simp [isOpen])
    have stamped := opened.stamped r before
    rw [shrinks.relays r, conns]
    exact stamped

/-- **The invariant.** -/
structure Inv (C : Option ConnId) (s : Host P) : Prop where
  links : Links none s
  calls : Calls none s
  incoming : Incoming s
  opened : Opened C s

theorem CallsOnly.inv (only : CallsOnly s after) (inv : Inv C s) (calls : Calls none after) :
    Inv C after :=
  ⟨only.links inv.links, calls, only.shrinks.incoming inv.incoming, only.shrinks.opened inv.opened⟩

theorem inv_abort (inv : Inv C s) (t : TaskId) : Inv C (s.abort t) :=
  (callsOnly_abort s t).inv inv (calls_abort inv.calls t)

theorem inv_finish (inv : Inv C s) (t : TaskId) (outcome : Outcome) : Inv C (s.finish t outcome) :=
  (callsOnly_finish s t outcome).inv inv (calls_finish inv.calls t outcome)

theorem inv_settle (inv : Inv C s) {t : TaskId} (outcome : Outcome)
    (idle : (s.tasks t).phase ≠ .forwarded) : Inv C (s.settle t outcome) :=
  (callsOnly_settle s t outcome).inv inv (calls_settle inv.calls outcome idle)

theorem inv_send (inv : Inv C s) (c : ConnId) (frame : Frame P) : Inv C (s.send c frame) :=
  (callsOnly_send s c frame).inv inv (calls_send inv.calls c frame)

theorem inv_close (inv : Inv C s) (r : RelayId) (error : WireError) (releaseDown notify : Bool) :
    Inv C (s.closeRelay r error releaseDown notify) := by
  obtain ⟨links, calls⟩ := inv_closeRelay inv.links inv.calls r error releaseDown notify
  have shrinks := shrinks_closeRelay s r error releaseDown notify
  exact ⟨links, calls, shrinks.incoming inv.incoming, shrinks.opened inv.opened⟩

theorem inv_drop (inv : Inv C s) (c : ConnId) (id : Nat) (release : Bool) :
    Inv C (s.dropServed c id release) := by
  obtain ⟨links, calls⟩ := inv_dropServed inv.links inv.calls c id release
  have shrinks := shrinks_dropServed s c id release
  exact ⟨links, calls, shrinks.incoming inv.incoming, shrinks.opened inv.opened⟩

theorem inv_foldl {A : Type} {f : Host P → A → Host P} (one : ∀ s a, Inv C s → Inv C (f s a))
    (list : List A) (inv : Inv C s) : Inv C (list.foldl f s) := by
  induction list generalizing s with
  | nil => exact inv
  | cons a rest ih => exact ih (one s a inv)

/-! ### A link closes -/

/-- A link changes nothing that relays depend on. -/
theorem links_setConn (links : Links K s) {c : ConnId} (served : conn.served = (s.conns c).served)
    (relayedRefs : conn.relayedRefs = (s.conns c).relayedRefs)
    (nextId : (s.conns c).nextId ≤ conn.nextId) : Links K (s.setConn c conn) := by
  refine links_putConn links (absurd rfl) (fun _ _ => nextId) (fun id r found => ?_)
    (fun r _ _ _ found => ?_) (fun k r found => ?_) fun r _ _ _ found => ?_
  · rwa [served] at found
  · rwa [served]
  · rwa [relayedRefs] at found
  · rwa [relayedRefs]

/-- A link that serves something or is called is open, or it is the one that closes. -/
theorem opened_putConn (opened : Opened C s) {C' : Option ConnId} {c : ConnId}
    (keeps : ∀ c', C = some c' → C' = some c')
    (isOpen : conn.isOpen = true → (s.conns c).isOpen = true)
    (generation : conn.generation = (s.conns c).generation ∨ C' = some c)
    (served : ∀ id x, Assoc.get id conn.served = some x → conn.isOpen = true ∨ C' = some c)
    (incoming : ∀ id t, Assoc.get id conn.incoming = some t → conn.isOpen = true ∨ C' = some c) :
    Opened C' (s.setConn c conn) := by
  constructor
  all_goals dsimp only [setConn]
  case connBound =>
    intro c'
    have bound := opened.connBound c'
    grind
  case served =>
    intro c' id x
    have found := opened.served c' id x
    grind
  case incoming =>
    intro c' id t
    have found := opened.incoming c' id t
    grind
  case stamped =>
    intro r
    have stamped := opened.stamped r
    grind

/-- A link is no longer open, or its principal is revoked. -/
theorem inv_shut (inv : Inv none s) (c : ConnId) (isOpen : Bool) (generation : Nat)
    (opens : isOpen = true → (s.conns c).isOpen = true) :
    Inv (some c) (s.setConn c { s.conns c with isOpen, generation }) := by
  refine ⟨links_setConn inv.links rfl rfl (Nat.le_refl _),
    calls_setConn inv.calls rfl (Nat.le_refl _), ?_, ?_⟩
  · refine { inv.incoming with incoming_of := fun c' id t => ?_, of_incoming := fun t later is => ?_ }
    · have of := inv.incoming.incoming_of c' id t
      dsimp only [setConn]
      grind
    · have of := inv.incoming.of_incoming t later is
      dsimp only [setConn]
      grind
  · exact opened_putConn inv.opened (fun _ is => by cases is) opens (.inr rfl)
      (fun _ _ _ => .inr rfl) fun _ _ _ => .inr rfl

/-- A hold that is dropped is no longer served. -/
theorem dropServed_self (s : Host P) (c : ConnId) (id : Nat) (release : Bool) :
    Assoc.get id ((s.dropServed c id release).conns c).served = none := by
  unfold dropServed
  split
  · assumption
  · rename_i served _
    have gone : Assoc.get id ((s.setConn c
        { s.conns c with served := Assoc.erase id (s.conns c).served }).conns c).served = none := by
      simp only [setConn, update_self, Assoc.get_erase_self]
    cases served with
    | «local» principal origin => exact gone
    | relay r =>
      refine Option.eq_none_iff_forall_not_mem.mpr fun served found => ?_
      have before := (shrinks_closeRelay _ r _ release false).served c id served found
      rw [gone] at before
      cases before

/-- What a link that closed served is dropped. -/
theorem dropAll_served (s : Host P) (c : ConnId) (id : Nat) :
    Assoc.get id ((s.dropAll c).conns c).served = none := by
  have shrinks : ∀ (list : List Nat) (s : Host P),
      Shrinks s (list.foldl (fun s id => s.dropServed c id true) s) :=
    Shrinks.foldl fun s id => shrinks_dropServed s c id true
  have dropped : ∀ (list : List Nat) (s : Host P), id ∈ list →
      Assoc.get id ((list.foldl (fun s id => s.dropServed c id true) s).conns c).served = none := by
    intro list
    induction list with
    | nil => exact fun s member => by cases member
    | cons first rest ih =>
      intro s member
      rcases List.mem_cons.mp member with rfl | later
      · refine Option.eq_none_iff_forall_not_mem.mpr fun served found => ?_
        have before := (shrinks rest _).served c id served found
        rw [dropServed_self] at before
        cases before
      · exact ih _ later
  refine Option.eq_none_iff_forall_not_mem.mpr fun served found => ?_
  have before := (shrinks _ s).served c id served found
  have member : id ∈ Assoc.keys (s.conns c).served :=
    Assoc.has_iff.mp (by simp only [Assoc.has, before, Option.isSome_some])
  rw [dropAll, dropped _ s member] at found
  cases found

theorem inv_dropAll (inv : Inv C s) (c : ConnId) : Inv C (s.dropAll c) :=
  inv_foldl (fun _ id inv => inv_drop inv c id true) _ inv

/-- A link that closed has no calls of its peer. -/
theorem inv_abortIncoming (inv : Inv C s) {c : ConnId} (shut : (s.conns c).isOpen = false) :
    Inv C (s.abortIncoming c) := by
  unfold abortIncoming
  have aborted : Inv C (((s.conns c).incoming.map Prod.snd).foldl abort s) :=
    inv_foldl (fun _ t inv => inv_abort inv t) _ inv
  have only : CallsOnly s (((s.conns c).incoming.map Prod.snd).foldl abort s) :=
    CallsOnly.foldl callsOnly_abort _ s
  have shut : ((((s.conns c).incoming.map Prod.snd).foldl abort s).conns c).isOpen = false := by
    rw [only.conns c]
    exact shut
  generalize ((s.conns c).incoming.map Prod.snd).foldl abort s = s₁ at aborted shut ⊢
  refine ⟨links_setConn aborted.links rfl rfl (Nat.le_refl _),
    calls_setConn aborted.calls rfl (Nat.le_refl _), ?_, ?_⟩
  · refine { aborted.incoming with
      incoming_of := fun c' id t => ?_, of_incoming := fun t later is => ?_ }
    · have of := aborted.incoming.incoming_of c' id t
      dsimp only [setConn]
      grind [Assoc.get_nil]
    · have of := aborted.incoming.of_incoming t later is
      dsimp only [setConn]
      grind
  · exact opened_putConn aborted.opened (fun _ is => is) (fun is => is) (.inl rfl)
      (aborted.opened.served c) fun _ _ found => by cases found

theorem abortIncoming_incoming (s : Host P) (c : ConnId) :
    ((s.abortIncoming c).conns c).incoming = [] := by
  unfold abortIncoming
  simp only [setConn, update_self]

theorem abortIncoming_served (s : Host P) (c c' : ConnId) :
    ((s.abortIncoming c).conns c').served = (s.conns c').served := by
  unfold abortIncoming
  have only : CallsOnly s (((s.conns c).incoming.map Prod.snd).foldl abort s) :=
    CallsOnly.foldl callsOnly_abort _ s
  generalize ((s.conns c).incoming.map Prod.snd).foldl abort s = s₁ at only ⊢
  dsimp only [setConn]
  rcases eq_or_ne c' c with rfl | other
  · rw [update_self, only.conns c']
  · rw [update_of_ne other, only.conns c']

/-- A relay that is closed stays so. -/
theorem closeRelay_closed (s : Host P) (r : RelayId) (error : WireError)
    (releaseDown notify : Bool) :
    ((s.closeRelay r error releaseDown notify).relays r).closed = true := by
  unfold closeRelay
  split
  · assumption
  · have shrinks : Shrinks (s.setRelay r { s.relays r with closed := true }) _ :=
      (callsOnly_cancelCalls _ r error releaseDown).shrinks.trans <|
      (shrinks_unserve _ r).trans <|
      (shrinks_unhold _ r releaseDown).trans (shrinks_rejectWaiters _ r error)
    have closed := shrinks.closed r (by simp only [setRelay, update_self])
    dsimp only
    split
    · rw [send_relays]
      exact closed
    · exact closed

theorem closeRelays_closed (error : WireError) (releaseDown notify : Bool) {r : RelayId}
    (list : List RelayId) (s : Host P) (member : r ∈ list) :
    ((list.foldl (fun s r => s.closeRelay r error releaseDown notify) s).relays r).closed =
      true := by
  induction list generalizing s with
  | nil => cases member
  | cons first rest ih =>
    rcases List.mem_cons.mp member with rfl | later
    · have shrinks : Shrinks (s.closeRelay r error releaseDown notify)
          (rest.foldl (fun s r => s.closeRelay r error releaseDown notify) _) :=
        Shrinks.foldl (fun s r => shrinks_closeRelay s r error releaseDown notify) rest _
      exact shrinks.closed r (closeRelay_closed s r error releaseDown notify)
    · exact ih _ later

/-- A link that serves nothing is like any other. -/
theorem opened_shut (opened : Opened (some c) s) (links : Links none s)
    (unserved : ∀ id, Assoc.get id (s.conns c).served = none)
    (idle : (s.conns c).incoming = []) : Opened none s where
  connBound := opened.connBound
  served c' id served found := by
    refine .inl ((opened.served c' id served found).resolve_right fun is => ?_)
    cases is
    rw [unserved id] at found
    cases found
  incoming c' id t found := by
    refine .inl ((opened.incoming c' id t found).resolve_right fun is => ?_)
    cases is
    rw [idle] at found
    cases found
  stamped r isOpen := by
    refine .inl ((opened.stamped r isOpen).resolve_right fun is => ?_)
    have found := links.of_open r isOpen fun is => by cases is
    have origin : c = (s.relays r).origin := Option.some.inj is
    rw [← origin, unserved] at found
    cases found

/-- A link down which no relay goes forgets its holds and calls. -/
theorem inv_clear (inv : Inv C s)
    (closed : ∀ r, (s.relays r).down = some c → (s.relays r).closed = true) :
    Inv C (s.setConn c
      { s.conns c with relayedRefs := fun _ => none, relayedCalls := fun _ => none }) := by
  have shrinks : Shrinks s (s.setConn c
      { s.conns c with relayedRefs := fun _ => none, relayedCalls := fun _ => none }) :=
    shrinks_setConn rfl fun id served found => found
  refine ⟨?_, ?_, shrinks.incoming inv.incoming, shrinks.opened inv.opened⟩
  · refine links_putConn inv.links (absurd rfl) (fun _ _ => Nat.le_refl _)
      (fun _ _ found => found) (fun _ _ _ _ found => found) (fun _ _ found => by cases found)
      fun r isOpen _ down _ => ?_
    rw [closed r down] at isOpen
    cases isOpen
  · refine calls_putConn inv.calls (fun _ _ found => by cases found) (fun r k t down named _ => ?_)
      fun _ _ => Nat.le_refl _
    rw [Named, closed r down] at named
    rcases named with is | is <;> cases is

theorem mem_downRelays (links : Links none s) {r : RelayId} (isOpen : (s.relays r).closed = false)
    (down : (s.relays r).down = some c) : r ∈ s.downRelays c := by
  refine List.mem_filter.mpr ⟨List.mem_range.mpr ?_, decide_eq_true ?_⟩
  · by_contra later
    have closed := (links.relayBound r (Nat.le_of_not_lt later)).1
    rw [isOpen] at closed
    cases closed
  · exact links.of_down r c isOpen (fun is => by cases is) down

/-- The relays that go down a link that closed are closed. -/
theorem downRelays_closed (links : Links none s) (error : WireError) {r : RelayId}
    (down : (s.relays r).down = some c) :
    (((s.downRelays c).foldl (fun s r => s.closeRelay r error false true) s).relays r).closed =
      true := by
  cases isOpen : (s.relays r).closed with
  | true =>
    have shrinks : Shrinks s
        ((s.downRelays c).foldl (fun s r => s.closeRelay r error false true) s) :=
      Shrinks.foldl (fun s r => shrinks_closeRelay s r error false true) _ s
    exact shrinks.closed r isOpen
  | false => exact closeRelays_closed error false true _ s (mem_downRelays links isOpen down)

theorem inv_closeDown (inv : Inv (some c) s)
    (unserved : ∀ id, Assoc.get id (s.conns c).served = none)
    (idle : (s.conns c).incoming = []) (error : WireError) :
    Inv none (s.closeDown c error) := by
  unfold closeDown
  have closedAll := fun r (down : (s.relays r).down = some c) =>
    downRelays_closed inv.links error down
  have all : Inv (some c) ((s.downRelays c).foldl (fun s r => s.closeRelay r error false true) s) :=
    inv_foldl (fun _ r inv => inv_close inv r error false true) _ inv
  have shrinks : Shrinks s ((s.downRelays c).foldl (fun s r => s.closeRelay r error false true) s) :=
    Shrinks.foldl (fun s r => shrinks_closeRelay s r error false true) _ s
  generalize (s.downRelays c).foldl (fun s r => s.closeRelay r error false true) s = s₁
    at closedAll all shrinks ⊢
  have opened : Opened none s₁ := by
    refine opened_shut all.opened all.links (fun id => ?_) (by rw [shrinks.conns c]; exact idle)
    refine Option.eq_none_iff_forall_not_mem.mpr fun served found => ?_
    have before := shrinks.served c id served found
    rw [unserved id] at before
    cases before
  refine inv_clear ⟨all.links, all.calls, all.incoming, opened⟩ fun r down => closedAll r ?_
  rw [shrinks.relays r] at down
  exact down

/-- **A link closes.** -/
theorem inv_closeConn (inv : Inv none s) (c : ConnId) (reason : Text) :
    Inv none (s.closeConn c reason) := by
  unfold closeConn
  dsimp only
  have shut : Inv (some c) (s.setConn c { s.conns c with isOpen := false }) :=
    inv_shut inv c false (s.conns c).generation fun is => by cases is
  have isShut : ((s.setConn c { s.conns c with isOpen := false }).conns c).isOpen = false := by
    simp only [setConn, update_self]
  generalize s.setConn c { s.conns c with isOpen := false } = s₁ at shut isShut ⊢
  have dropped := inv_dropAll shut c
  have shrinks : Shrinks s₁ (s₁.dropAll c) :=
    Shrinks.foldl (fun s id => shrinks_dropServed s c id true) _ s₁
  have still : ((s₁.dropAll c).conns c).isOpen = false := by
    rw [shrinks.conns c]
    exact isShut
  refine inv_closeDown (inv_abortIncoming dropped still) (fun id => ?_)
    (abortIncoming_incoming _ c) _
  rw [abortIncoming_served]
  exact dropAll_served s₁ c id

theorem mem_heldRelays (links : Links none s) {r : RelayId} (isOpen : (s.relays r).closed = false) :
    r ∈ s.heldRelays (s.relays r).origin := by
  have found := Assoc.mem_of_get (links.of_open r isOpen fun is => by cases is)
  exact List.mem_filterMap.mpr ⟨_, found, rfl⟩

/-- A link without relays, still open, is like any other. -/
theorem opened_still (opened : Opened (some c) s) (isOpen : (s.conns c).isOpen = true)
    (closed : ∀ r, (s.relays r).origin = c → (s.relays r).closed = true) : Opened none s where
  connBound := opened.connBound
  served c' id served found := by
    rcases opened.served c' id served found with open' | is
    · exact .inl open'
    · cases is
      exact .inl isOpen
  incoming c' id t found := by
    rcases opened.incoming c' id t found with open' | is
    · exact .inl open'
    · cases is
      exact .inl isOpen
  stamped r opened' := by
    rcases opened.stamped r opened' with same | is
    · exact .inl same
    · have shut := closed r (Option.some.inj is).symm
      rw [opened'] at shut
      cases shut

/-- The relays of a link are closed. -/
theorem inv_closeHeld (inv : Inv (some c) s) (isOpen : (s.conns c).isOpen = true)
    (error : WireError) : Inv none (s.closeHeld c error) := by
  have all : Inv (some c) (s.closeHeld c error) :=
    inv_foldl (fun _ r inv => inv_close inv r error true true) _ inv
  have shrinks : Shrinks s (s.closeHeld c error) :=
    Shrinks.foldl (fun s r => shrinks_closeRelay s r error true true) _ s
  refine ⟨all.links, all.calls, all.incoming, opened_still all.opened ?_ fun r origin => ?_⟩
  · rw [shrinks.conns c]
    exact isOpen
  · rw [shrinks.relays r] at origin
    cases opened : (s.relays r).closed with
    | true => exact shrinks.closed r opened
    | false =>
      have held := mem_heldRelays inv.links opened
      have origin : (s.relays r).origin = c := origin
      rw [origin] at held
      exact closeRelays_closed error true true _ s held

theorem incoming_setConn (incoming : Incoming s) {c : ConnId}
    (same : conn.incoming = (s.conns c).incoming) (isOpen : conn.isOpen = (s.conns c).isOpen) :
    Incoming (s.setConn c conn) := by
  have incomingAt : ∀ c', ((s.setConn c conn).conns c').incoming = (s.conns c').incoming := by
    intro c'
    dsimp only [setConn]
    rcases eq_or_ne c' c with rfl | other
    · rw [update_self, same]
    · rw [update_of_ne other]
  have openAt : ∀ c', ((s.setConn c conn).conns c').isOpen = (s.conns c').isOpen := by
    intro c'
    dsimp only [setConn]
    rcases eq_or_ne c' c with rfl | other
    · rw [update_self, isOpen]
    · rw [update_of_ne other]
  refine { incoming with incoming_of := fun c' id t => ?_, of_incoming := fun t => ?_ }
  · rw [incomingAt]
    exact incoming.incoming_of c' id t
  · rw [incomingAt, openAt]
    exact incoming.of_incoming t

theorem opened_setConn (opened : Opened C s) {c : ConnId}
    (served : conn.served = (s.conns c).served) (incoming : conn.incoming = (s.conns c).incoming)
    (isOpen : conn.isOpen = (s.conns c).isOpen)
    (generation : conn.generation = (s.conns c).generation) : Opened C (s.setConn c conn) :=
  opened_putConn opened (fun _ is => is) (by rw [isOpen]; exact id) (.inl generation)
    (by rw [served, isOpen]; exact opened.served c) (by rw [incoming, isOpen]; exact opened.incoming c)

/-- A link changes nothing but what nothing depends on. -/
theorem inv_setConn (inv : Inv C s) {c : ConnId}
    (same : conn = { s.conns c with nextId := conn.nextId, principal := conn.principal })
    (nextId : (s.conns c).nextId ≤ conn.nextId) : Inv C (s.setConn c conn) :=
  ⟨links_setConn inv.links (by rw [same]) (by rw [same]) nextId,
    calls_setConn inv.calls (by rw [same]) nextId,
    incoming_setConn inv.incoming (by rw [same]) (by rw [same]),
    opened_setConn inv.opened (by rw [same]) (by rw [same]) (by rw [same]) (by rw [same])⟩

/-- **A principal is revoked.** -/
theorem inv_revoke (inv : Inv none s) {c : ConnId} (isOpen : (s.conns c).isOpen = true)
    (next : Option (Option P)) : Inv none (s.revoke c next) := by
  unfold revoke
  dsimp only
  have shut : Inv (some c) (s.setConn c
      { s.conns c with generation := (s.conns c).generation + 1 }) :=
    inv_shut inv c (s.conns c).isOpen _ fun is => is
  have still : ((s.setConn c
      { s.conns c with generation := (s.conns c).generation + 1 }).conns c).isOpen = true := by
    simpa only [setConn, update_self] using isOpen
  have held := inv_closeHeld shut still (chordError "gone" "principal invalidated")
  cases next with
  | none => exact inv_closeConn held c _
  | some principal => exact inv_setConn held rfl (Nat.le_refl _)

end Host

end TianGong.Relay
