/-
**What a relaying host sends, and what it was sent.**

* `Logs`: the invariant of the logs.
* `kept_run`: every run whose steps meet the condition keeps it.
-/

import Mathlib.Data.List.Count
import TianGong.Lib.Returns
import TianGong.Relay.Quiet

namespace TianGong.Relay

open Function (update update_apply update_of_ne update_self)
open Returns
open List Option

attribute [local grind =] update_apply

variable {P : Type}

variable {t : TaskId}

variable {more : List (ConnId × Frame P)}

variable {r : RelayId}

namespace Host

variable {K : Option RelayId} {C : Option ConnId} {c : ConnId} {s after : Host P}

/-- A call frame whose result is still to come. -/
def pending (s : Host P) (c : ConnId) (id : Nat) : Nat :=
  match Assoc.get id (s.conns c).incoming with
  | some t => if (s.tasks t).answered then 0 else 1
  | none => 0

/-- **The invariant of the logs.** -/
structure Logs (s : Host P) : Prop where
  callsSent : CallsSent s
  callFresh : ∀ d k, (d, k) ∈ callIds s.sent → k < (s.conns d).nextId
  callOnce : (callIds s.sent).Nodup
  call_of : ∀ d k, (d, k) ∈ callIds s.sent → ∃ t, s.SentOn t d k
  cancelled : ∀ before d k later, s.sent = before ++ (d, .cancel k) :: later →
    (d, k) ∈ callIds before
  current : ∀ t k, (s.tasks t).sentAs = some k → (s.tasks t).sentCurrent = true
  isOver : ∀ t r d k, (s.tasks t).relay = some r → (s.relays r).down = some d →
    (s.tasks t).sentAs = some k → (s.tasks t).phase = .forwarded ∨ s.Over r d k
  values : ∀ t r value, (s.tasks t).relay = some r →
    (s.tasks t).phase = .settled (.value value) → ∃ d k, (s.relays r).down = some d ∧
      (s.tasks t).sentAs = some k ∧ (d, Frame.result k (.value value)) ∈ s.received
  answers : ∀ c id value, (c, Frame.result id (.value value)) ∈ s.sent →
    ∃ t, t < s.taskCount ∧ (s.tasks t).origin = c ∧ (s.tasks t).frame.id = id ∧
      (s.tasks t).answered = true ∧ (s.tasks t).phase = .settled (.value value)
  atMost : ∀ c id, (resultIds s.sent).count (c, id) + s.pending c id ≤ s.called.count (c, id)
  atLeast : ∀ c id, (s.conns c).isOpen = true →
    s.called.count (c, id) ≤ (resultIds s.sent).count (c, id) + s.pending c id
  calledBound : ∀ c id, (c, id) ∈ s.called → c < s.connCount

/-- No call that is relayed runs here. -/
def Started (s : Host P) : Prop :=
  ∀ t r, (s.tasks t).relay = some r → (s.tasks t).phase ≠ .running

/-- **What the condition keeps.** -/
structure Clean (C : Option ConnId) (s : Host P) : Prop where
  aborted : ∀ t, (s.tasks t).aborted = true →
    (s.tasks t).phase ≠ .waiting ∧ (s.tasks t).phase ≠ .forwarded
  downOpen : ∀ r d, (s.relays r).closed = false → (s.relays r).down = some d →
    (s.conns d).isOpen = true ∨ C = some d

/-! ### What ends calls -/

/-- What the logs say of the calls that were sent. -/
structure CallLog (s : Host P) : Prop where
  callsSent : CallsSent s
  callFresh : ∀ d k, (d, k) ∈ callIds s.sent → k < (s.conns d).nextId
  callOnce : (callIds s.sent).Nodup
  call_of : ∀ d k, (d, k) ∈ callIds s.sent → ∃ t, s.SentOn t d k

/-- **A step that sends no call** keeps it. -/
theorem Logs.unsent (logs : Logs s) (calls : callIds after.sent = callIds s.sent)
    (sentOn : ∀ t d k, after.SentOn t d k ↔ s.SentOn t d k)
    (isOpen : ∀ t d k, s.SentOn t d k → (after.conns d).isOpen = true → (s.conns d).isOpen = true)
    (nextId : ∀ t d k, s.SentOn t d k → (s.conns d).nextId ≤ (after.conns d).nextId) :
    CallLog after where
  callsSent t d k sent is := by
    have before := (sentOn t d k).mp sent
    rw [calls]
    exact logs.callsSent t d k before (isOpen t d k before is)
  callFresh d k member := by
    rw [calls] at member
    obtain ⟨t, sent⟩ := logs.call_of d k member
    exact Nat.lt_of_lt_of_le (logs.callFresh d k member) (nextId t d k sent)
  callOnce := by
    rw [calls]
    exact logs.callOnce
  call_of d k member := by
    rw [calls] at member
    exact (logs.call_of d k member).imp fun t => (sentOn t d k).mpr

theorem cancelled_append
    (cancelled : ∀ before d k later, s.sent = before ++ (d, .cancel k) :: later →
      (d, k) ∈ callIds before)
    (ending : ∀ d k, (d, Frame.cancel k) ∈ more → (d, k) ∈ callIds s.sent) :
    ∀ before d k later, s.sent ++ more = before ++ (d, .cancel k) :: later →
      (d, k) ∈ callIds before := by
  intro before d k later eq
  rcases List.append_eq_append_iff.mp eq with ⟨rest, isBefore, isMore⟩ | ⟨rest, isSent, isLater⟩
  · have member : (d, Frame.cancel k) ∈ more := by
      rw [isMore]
      exact mem_append_right _ mem_cons_self
    rw [isBefore, callIds_append]
    exact mem_append_left _ (ending d k member)
  · cases rest with
    | nil =>
      have member : (d, Frame.cancel k) ∈ more := by
        rw [nil_append] at isLater
        rw [← isLater]
        exact mem_cons_self
      rw [append_nil] at isSent
      rw [← isSent]
      exact ending d k member
    | cons e rest =>
      rw [cons_append] at isLater
      cases isLater
      exact cancelled before d k rest isSent

theorem Quiet.pending_eq (quiet : Quiet s after) (c : ConnId) (id : Nat) :
    after.pending c id = s.pending c id := by
  unfold pending
  rw [quiet.shrinks.conns c]
  dsimp only
  split
  · rename_i t _
    rw [quiet.shrinks.tasks t]
  · rfl

theorem Quiet.logs (quiet : Quiet s after) (logs : Logs s) : Logs after where
  __ := logs.unsent quiet.callIds_eq quiet.sentOn_iff (fun _ d _ _ is => quiet.isOpen_eq d ▸ is)
    (fun _ d _ _ => by rw [quiet.shrinks.conns d])
  cancelled := by
    obtain ⟨more, sent, ending⟩ := quiet.sent
    rw [sent]
    exact cancelled_append logs.cancelled fun d k member => ending _ member
  current t := by
    rw [quiet.shrinks.tasks t]
    exact logs.current t
  isOver t r d k relay down sentAs := by
    rw [quiet.shrinks.tasks t] at relay sentAs
    rw [quiet.shrinks.relays r] at down
    rcases logs.isOver t r d k relay down sentAs with phase | isOver
    · exact quiet.isOver t r d k phase relay down sentAs
    · exact .inr (quiet.over_mono isOver)
  values t r value relay is := by
    rw [quiet.shrinks.tasks t] at relay
    have found : ∃ d k, (s.relays r).down = some d ∧ (s.tasks t).sentAs = some k ∧
        (d, Frame.result k (.value value)) ∈ s.received := by
      rcases quiet.values t r value relay is with before | found
      · exact logs.values t r value relay before
      · exact found
    rw [quiet.shrinks.relays r, quiet.shrinks.tasks t, quiet.received]
    exact found
  answers c id value member := by
    obtain ⟨more, sent, ending⟩ := quiet.sent
    rw [sent] at member
    rcases mem_append.mp member with before | later
    · obtain ⟨t, bound, origin, frame, answered, phase⟩ := logs.answers c id value before
      refine ⟨t, ?_, ?_, ?_, ?_, quiet.shrinks.settled t _ phase⟩
      · rw [quiet.shrinks.taskCount]
        exact bound
      · rw [quiet.shrinks.tasks t]
        exact origin
      · rw [quiet.shrinks.tasks t]
        exact frame
      · rw [quiet.shrinks.tasks t]
        exact answered
    · exact (ending _ later).elim
  atMost c id := by
    rw [quiet.resultIds_eq, quiet.pending_eq, quiet.called]
    exact logs.atMost c id
  atLeast c id := by
    rw [quiet.resultIds_eq, quiet.pending_eq, quiet.called, quiet.isOpen_eq]
    exact logs.atLeast c id
  calledBound c id := by
    rw [quiet.called, quiet.shrinks.connCount]
    exact logs.calledBound c id

theorem Shrinks.downOpen (shrinks : Shrinks s after)
    (downOpen : ∀ r d, (s.relays r).closed = false → (s.relays r).down = some d →
      (s.conns d).isOpen = true ∨ C = some d) (r : RelayId) (d : ConnId)
    (opened : (after.relays r).closed = false) (down : (after.relays r).down = some d) :
    (after.conns d).isOpen = true ∨ C = some d := by
  rw [shrinks.relays r] at down
  rw [shrinks.conns d]
  refine downOpen r d ?_ down
  cases was : (s.relays r).closed with
  | false => rfl
  | true => exact absurd (shrinks.closed r was) (by simp [opened])

theorem Quiet.clean (quiet : Quiet s after) (clean : Clean C s) : Clean C after where
  aborted t is := by
    refine ⟨fun phase => ?_, fun phase => ?_⟩
    · obtain ⟨was, same⟩ := quiet.aborted t is (.inl phase)
      exact (clean.aborted t was).1 (same.trans phase)
    · obtain ⟨was, same⟩ := quiet.aborted t is (.inr phase)
      exact (clean.aborted t was).2 (same.trans phase)
  downOpen := quiet.shrinks.downOpen clean.downOpen

/-! ### What moves no call -/

/-- A frame that is no call, result or cancel. -/
def Frame.Still : Frame P → Prop
  | .call _ | .result _ _ | .cancel _ => False
  | _ => True

/-- A step that moves no call, unless to the end of its wait. -/
structure Idle (s after : Host P) : Prop where
  tasks : ∀ t, after.tasks t = { s.tasks t with phase := (after.tasks t).phase }
  phases : ∀ t, (after.tasks t).phase = (s.tasks t).phase ∨
    (s.tasks t).phase = .waiting ∧ (after.tasks t).phase = .ready
  relays : ∀ t r, (s.tasks t).relay = some r → (s.tasks t).sentAs ≠ none →
    (after.relays r).down = (s.relays r).down ∧ (after.relays r).downId = (s.relays r).downId
  sent : ∃ more, after.sent = s.sent ++ more ∧ ∀ e ∈ more, Frame.Still e.2
  received : ∀ e ∈ s.received, e ∈ after.received
  called : after.called = s.called
  taskCount : after.taskCount = s.taskCount
  connCount : s.connCount ≤ after.connCount
  isOpen : ∀ d, d < s.connCount → (after.conns d).isOpen = true → (s.conns d).isOpen = true
  nextId : ∀ d, d < s.connCount → (s.conns d).nextId ≤ (after.conns d).nextId
  incoming : ∀ d, (after.conns d).incoming = [] ∨ (after.conns d).incoming = (s.conns d).incoming
  kept : ∀ d, d < s.connCount → (after.conns d).isOpen = true →
    (after.conns d).incoming = (s.conns d).incoming

theorem callIds_still (still : ∀ e ∈ more, Frame.Still e.2) : callIds more = [] := by
  refine List.filterMap_eq_nil_iff.mpr fun e member => ?_
  have here := still e member
  unfold Frame.Still at here
  split at here <;> simp_all

theorem resultIds_still (still : ∀ e ∈ more, Frame.Still e.2) : resultIds more = [] := by
  refine List.filterMap_eq_nil_iff.mpr fun e member => ?_
  have here := still e member
  unfold Frame.Still at here
  split at here <;> simp_all

namespace Idle

theorem trans {s₁ s₂ s₃ : Host P} (first : Idle s₁ s₂) (second : Idle s₂ s₃) : Idle s₁ s₃ where
  tasks t := by
    rw [second.tasks t, first.tasks t]
  phases t := by
    rcases second.phases t with kept | ⟨waiting, ready⟩
    · rw [kept]
      exact first.phases t
    · rcases first.phases t with kept' | ⟨-, ready'⟩
      · exact .inr ⟨kept'.symm.trans waiting, ready⟩
      · rw [waiting] at ready'
        cases ready'
  relays t r relay sent := by
    obtain ⟨down₁, downId₁⟩ := first.relays t r relay sent
    obtain ⟨down₂, downId₂⟩ := second.relays t r (by rw [first.tasks t]; exact relay)
      (by rw [first.tasks t]; exact sent)
    exact ⟨down₂.trans down₁, downId₂.trans downId₁⟩
  sent := by
    obtain ⟨more₁, sent₁, still₁⟩ := first.sent
    obtain ⟨more₂, sent₂, still₂⟩ := second.sent
    refine ⟨more₁ ++ more₂, by rw [sent₂, sent₁, append_assoc], fun e member => ?_⟩
    rcases mem_append.mp member with here | later
    · exact still₁ e here
    · exact still₂ e later
  received e member := second.received e (first.received e member)
  called := second.called.trans first.called
  taskCount := second.taskCount.trans first.taskCount
  connCount := Nat.le_trans first.connCount second.connCount
  isOpen d bound is :=
    first.isOpen d bound (second.isOpen d (Nat.lt_of_lt_of_le bound first.connCount) is)
  nextId d bound := Nat.le_trans (first.nextId d bound)
    (second.nextId d (Nat.lt_of_lt_of_le bound first.connCount))
  incoming d := by
    rcases second.incoming d with is | same
    · exact .inl is
    · rw [same]
      exact first.incoming d
  kept d bound is := by
    have bound₂ := Nat.lt_of_lt_of_le bound first.connCount
    rw [second.kept d bound₂ is]
    exact first.kept d bound (second.isOpen d bound₂ is)

theorem callIds_eq (idle : Idle s after) : callIds after.sent = callIds s.sent := by
  obtain ⟨more, sent, still⟩ := idle.sent
  rw [sent, callIds_append, callIds_still still, append_nil]

theorem resultIds_eq (idle : Idle s after) : resultIds after.sent = resultIds s.sent := by
  obtain ⟨more, sent, still⟩ := idle.sent
  rw [sent, resultIds_append, resultIds_still still, append_nil]

theorem sentOn_iff (idle : Idle s after) (t : TaskId) (d : ConnId) (k : Nat) :
    after.SentOn t d k ↔ s.SentOn t d k := by
  unfold SentOn
  rw [idle.tasks t]
  dsimp only
  refine and_congr_right fun sentAs => exists_congr fun r => and_congr_right fun relay => ?_
  rw [(idle.relays t r relay (by rw [sentAs]; exact fun is => by cases is)).1]

theorem pending_le (idle : Idle s after) (c : ConnId) (id : Nat) :
    after.pending c id ≤ s.pending c id := by
  unfold pending
  rcases idle.incoming c with is | is
  · rw [is, Assoc.get_nil]
    exact Nat.zero_le _
  · rw [is]
    split
    · rename_i t _
      rw [idle.tasks t]
    · exact Nat.le_refl _

theorem pending_eq (idle : Idle s after) {c : ConnId} (id : Nat) (bound : c < s.connCount)
    (isOpen : (after.conns c).isOpen = true) : after.pending c id = s.pending c id := by
  unfold pending
  rw [idle.kept c bound isOpen]
  split
  · rename_i t _
    rw [idle.tasks t]
  · rfl

theorem logs (idle : Idle s after) (links : Links K s) (logs : Logs s) : Logs after where
  __ := logs.unsent idle.callIds_eq idle.sentOn_iff
    (fun _ d _ sent is => by
      obtain ⟨-, r, -, down⟩ := sent
      exact idle.isOpen d (links.downBound r d down) is)
    (fun _ d _ sent => by
      obtain ⟨-, r, -, down⟩ := sent
      exact idle.nextId d (links.downBound r d down))
  cancelled := by
    obtain ⟨more, sent, still⟩ := idle.sent
    rw [sent]
    exact cancelled_append logs.cancelled fun d k member => (still _ member).elim
  current t := by
    rw [idle.tasks t]
    exact logs.current t
  isOver t r d k relay down sentAs := by
    rw [idle.tasks t] at relay sentAs
    obtain ⟨same, sameId⟩ := idle.relays t r relay (by rw [sentAs]; exact fun is => by cases is)
    rw [same] at down
    rcases logs.isOver t r d k relay down sentAs with phase | isOver
    · rcases idle.phases t with kept | ⟨waiting, -⟩
      · exact .inl (kept.trans phase)
      · rw [phase] at waiting
        cases waiting
    · obtain ⟨more, sent, -⟩ := idle.sent
      refine .inr (isOver.mono (fun e member => ?_) idle.received sameId
        (idle.isOpen d (links.downBound r d down)))
      rw [sent]
      exact mem_append_left _ member
  values t r value relay is := by
    rw [idle.tasks t] at relay
    have phase : (s.tasks t).phase = .settled (.value value) := by
      rcases idle.phases t with kept | ⟨-, ready⟩
      · exact kept.symm.trans is
      · rw [is] at ready
        cases ready
    obtain ⟨d, k, down, sentAs, result⟩ := logs.values t r value relay phase
    obtain ⟨same, -⟩ := idle.relays t r relay (by rw [sentAs]; exact fun is => by cases is)
    rw [same, idle.tasks t]
    exact ⟨d, k, down, sentAs, idle.received _ result⟩
  answers c id value member := by
    obtain ⟨more, sent, still⟩ := idle.sent
    rw [sent] at member
    rcases mem_append.mp member with before | later
    · obtain ⟨t, bound, origin, frame, answered, phase⟩ := logs.answers c id value before
      refine ⟨t, ?_, ?_, ?_, ?_, ?_⟩
      · rw [idle.taskCount]
        exact bound
      · rw [idle.tasks t]
        exact origin
      · rw [idle.tasks t]
        exact frame
      · rw [idle.tasks t]
        exact answered
      · rcases idle.phases t with kept | ⟨waiting, -⟩
        · exact kept.trans phase
        · rw [phase] at waiting
          cases waiting
    · exact (still _ later).elim
  atMost c id := by
    rw [idle.resultIds_eq, idle.called]
    exact Nat.le_trans (Nat.add_le_add_left (idle.pending_le c id) _) (logs.atMost c id)
  atLeast c id isOpen := by
    rw [idle.resultIds_eq, idle.called]
    rcases Nat.lt_or_ge c s.connCount with bound | later
    · rw [idle.pending_eq id bound isOpen]
      exact logs.atLeast c id (idle.isOpen c bound isOpen)
    · have uncalled : s.called.count (c, id) = 0 :=
        List.count_eq_zero.mpr fun member =>
          absurd (logs.calledBound c id member) (Nat.not_lt_of_le later)
      rw [uncalled]
      exact Nat.zero_le _
  calledBound c id := by
    rw [idle.called]
    exact fun member => Nat.lt_of_lt_of_le (logs.calledBound c id member) idle.connCount

theorem aborted (idle : Idle s after) (clean : Clean C s) (t : TaskId)
    (is : (after.tasks t).aborted = true) :
    (after.tasks t).phase ≠ .waiting ∧ (after.tasks t).phase ≠ .forwarded := by
  rw [idle.tasks t] at is
  have before := clean.aborted t is
  rcases idle.phases t with kept | ⟨waiting, -⟩
  · rw [kept]
    exact before
  · exact absurd waiting before.1

end Idle

theorem idle_setConn {c : ConnId} {conn : Connection P}
    (incoming : conn.incoming = (s.conns c).incoming ∨
      conn.incoming = [] ∧ (c < s.connCount → conn.isOpen = false))
    (isOpen : c < s.connCount → conn.isOpen = true → (s.conns c).isOpen = true)
    (nextId : c < s.connCount → (s.conns c).nextId ≤ conn.nextId) : Idle s (s.setConn c conn) where
  tasks _ := rfl
  phases _ := .inl rfl
  relays _ _ _ _ := ⟨rfl, rfl⟩
  sent := sends_nothing _
  received _ member := member
  called := rfl
  taskCount := rfl
  connCount := Nat.le_refl _
  isOpen d bound is := by
    rcases eq_or_ne d c with rfl | other
    · simp only [setConn, update_self] at is
      exact isOpen bound is
    · simpa only [setConn, update_of_ne other] using is
  nextId d bound := by
    rcases eq_or_ne d c with rfl | other
    · simpa only [setConn, update_self] using nextId bound
    · simp only [setConn, update_of_ne other, Nat.le_refl]
  incoming d := by
    rcases eq_or_ne d c with rfl | other
    · simpa only [setConn, update_self] using incoming.symm.imp_left And.left
    · simp only [setConn, update_of_ne other, or_true]
  kept d bound is := by
    rcases eq_or_ne d c with rfl | other
    · simp only [setConn, update_self] at is ⊢
      exact incoming.resolve_right fun none => by rw [none.2 bound] at is; cases is
    · simp only [setConn, update_of_ne other]

/-- A step that changes only relays, logs and what was said. -/
theorem idle_of_eq (tasks : after.tasks = s.tasks) (conns : after.conns = s.conns)
    (called : after.called = s.called) (taskCount : after.taskCount = s.taskCount)
    (connCount : s.connCount ≤ after.connCount)
    (relays : ∀ t r, (s.tasks t).relay = some r → (s.tasks t).sentAs ≠ none →
      (after.relays r).down = (s.relays r).down ∧ (after.relays r).downId = (s.relays r).downId)
    (sent : ∃ more, after.sent = s.sent ++ more ∧ ∀ e ∈ more, Frame.Still e.2)
    (received : ∀ e ∈ s.received, e ∈ after.received) : Idle s after where
  tasks t := by rw [tasks]
  phases t := by
    rw [tasks]
    exact .inl rfl
  relays := relays
  sent := sent
  received := received
  called := called
  taskCount := taskCount
  connCount := connCount
  isOpen d _ is := by
    rw [conns] at is
    exact is
  nextId d _ := by
    rw [conns]
  incoming d := by
    rw [conns]
    exact .inr rfl
  kept d _ _ := by
    rw [conns]

theorem idle_setRelay {relay : RelayRef P} (down : relay.down = (s.relays r).down)
    (downId : relay.downId = (s.relays r).downId) : Idle s (s.setRelay r relay) := by
  refine idle_of_eq rfl rfl rfl rfl le_rfl (fun t r' _ _ => ?_)
    (sends_nothing _) fun _ member => member
  rcases eq_or_ne r' r with rfl | other
  · simpa only [setRelay, update_self] using ⟨down, downId⟩
  · simp only [setRelay, update_of_ne other, and_self]

theorem idle_send {frame : Frame P} (still : Frame.Still frame) (c : ConnId) :
    Idle s (s.send c frame) := by
  refine idle_of_eq (send_tasks ..) (send_conns ..) ?_ ?_ ?_ (fun t r _ _ => ?_) ?_
    fun e member => ?_
  · unfold send
    split <;> rfl
  · unfold send
    split <;> rfl
  · unfold send
    split <;> exact le_rfl
  · rw [send_relays]
    exact ⟨rfl, rfl⟩
  · unfold send
    split
    · exact ⟨[(c, frame)], rfl, fun e member => by
        cases mem_singleton.mp member
        exact still⟩
    · exact sends_nothing _
  · unfold send
    split <;> exact member

theorem idle_act (s : Host P) (c : ConnId) (act : Act P) : Idle s (s.act c act) :=
  idle_of_eq rfl rfl rfl rfl le_rfl (fun _ _ _ _ => ⟨rfl, rfl⟩)
    (sends_nothing _) fun _ member => member

theorem idle_received (s : Host P) (more : List (ConnId × Frame P)) :
    Idle s { s with received := s.received ++ more } :=
  idle_of_eq rfl rfl rfl rfl le_rfl (fun _ _ _ _ => ⟨rfl, rfl⟩)
    (sends_nothing _)
    fun _ member => mem_append_left _ member

theorem idle_granted (s : Host P) (granted : List (ConnId × Option P × Text × Nat)) :
    Idle s { s with granted } :=
  idle_of_eq rfl rfl rfl rfl le_rfl (fun _ _ _ _ => ⟨rfl, rfl⟩)
    (sends_nothing _) fun _ member => member

theorem idle_addRelay (calls : Calls none s) (c : ConnId) (frame : HoldFrame P)
    (principal : Option P) (origin : Option Text) :
    Idle s (s.addRelay c frame principal origin) := by
  refine (idle_setConn ?_ (fun _ => ?_) fun _ => ?_).trans
    (idle_of_eq rfl rfl rfl rfl le_rfl (fun t r relay _ => ?_)
      (sends_nothing _) fun _ member => member)
  · exact .inl rfl
  · exact fun is => is
  · exact le_rfl
  · have bound := calls.relayBound t r relay
    simp only [addRelay, setConn, setRelay, update_of_ne (Nat.ne_of_lt bound), and_self]

theorem idle_accept (s : Host P) (name : Text) (upstream client : Bool) (originId : Option Text)
    (principal : Option P) (maxCalls : Option Nat) :
    Idle s (s.accept name upstream client originId principal maxCalls) := by
  have unborn {A : Prop} (bound : s.connCount < s.connCount) : A :=
    (Nat.lt_irrefl _ bound).elim
  exact (idle_setConn (.inr ⟨rfl, unborn⟩) unborn unborn).trans
    (idle_of_eq rfl rfl rfl rfl (Nat.le_succ _) (fun _ _ _ _ => ⟨rfl, rfl⟩)
      (sends_nothing _) fun _ member => member)

/-- A link that closed has no calls of its peer. -/
theorem idle_noIncoming (s : Host P) {c : ConnId} (shut : (s.conns c).isOpen = false) :
    Idle s (s.setConn c { s.conns c with incoming := [] }) :=
  idle_setConn (.inr ⟨rfl, fun _ => shut⟩) (fun _ is => is) fun _ => le_rfl

theorem idle_openRelay (calls : Calls none s) (d : ConnId) (unopened : (s.relays r).down = none) :
    Idle s (s.openRelay r d) := by
  have goes : Idle s (s.goDown r d) := by
    have conns : Idle s (s.setConn d { s.conns d with
        nextId := (s.conns d).nextId + 1
        relayedRefs := update (s.conns d).relayedRefs (s.conns d).nextId (some r) }) :=
      idle_setConn (.inl rfl) (fun _ is => is) fun _ => Nat.le_succ _
    refine conns.trans (idle_of_eq rfl rfl rfl rfl le_rfl (fun t r' relay sent => ?_)
      (sends_nothing _) fun _ member => member)
    have other : r' ≠ r := by
      rintro rfl
      exact sent (calls_unsent (s := s) calls unopened relay)
    simp only [goDown, setConn, setRelay, update_of_ne other, and_self]
  unfold openRelay
  dsimp only
  split
  · exact idle_of_eq rfl rfl rfl rfl le_rfl (fun _ _ _ _ => ⟨rfl, rfl⟩)
      (sends_nothing _) fun _ member => member
  · generalize isFrame : Frame.hold _ = frame
    have still : Frame.Still frame := by
      rw [← isFrame]
      exact trivial
    generalize Act.forwarded _ _ = act
    refine (goes.trans ((idle_send still d).trans (idle_act _ (s.relays r).origin act))).trans ?_
    generalize ((s.goDown r d).send d frame).act (s.relays r).origin act = s₁
    obtain ⟨same, phases⟩ := resolveWaiters_eq (s.relays r).waiters s₁
    rw [same]
    refine ⟨fun t => (phases t).1, fun t => ?_, fun _ _ _ _ => ⟨rfl, rfl⟩,
      (sends_nothing _), fun _ member => member,
      rfl, rfl, Nat.le_refl _, fun _ _ is => is, fun _ _ => Nat.le_refl _, fun _ => .inr rfl,
      fun _ _ _ => rfl⟩
    rcases (phases t).2 with ⟨waiting, -, ready⟩ | ⟨kept, -⟩
    · exact .inr ⟨waiting, ready⟩
    · exact .inl kept

/-! ### Links close -/

/-- What the logs and the condition keep together. -/
structure Kept (C : Option ConnId) (s : Host P) : Prop where
  logs : Logs s
  clean : Clean C s
  started : Started s

theorem Quiet.started (quiet : Quiet s after) (started : Started s) : Started after := by
  intro t r relay running
  rw [quiet.shrinks.tasks t] at relay
  exact started t r relay (quiet.running t running)

theorem Quiet.kept (quiet : Quiet s after) (kept : Kept C s) : Kept C after :=
  ⟨quiet.logs kept.logs, quiet.clean kept.clean, quiet.started kept.started⟩

theorem Idle.started (idle : Idle s after) (started : Started s) : Started after := by
  intro t r relay running
  rw [idle.tasks t] at relay
  rcases idle.phases t with same | ⟨-, ready⟩
  · exact started t r relay (same.symm.trans running)
  · rw [ready] at running
    cases running

/-- Steps that also keep the links down which relays go. -/
theorem Idle.keeps (idle : Idle s after) (links : Links K s) (kept : Kept C s)
    (downOpen : ∀ r d, (after.relays r).closed = false → (after.relays r).down = some d →
      (after.conns d).isOpen = true ∨ C = some d) : Kept C after :=
  ⟨idle.logs links kept.logs, ⟨idle.aborted kept.clean, downOpen⟩, idle.started kept.started⟩

theorem kept_foldl {A : Type} {f : Host P → A → Host P}
    (one : ∀ s a, Inv C s → Kept C s → Inv C (f s a) ∧ Kept C (f s a)) (list : List A)
    (inv : Inv C s) (kept : Kept C s) : Inv C (list.foldl f s) ∧ Kept C (list.foldl f s) := by
  induction list generalizing s with
  | nil => exact ⟨inv, kept⟩
  | cons a rest ih =>
    obtain ⟨inv', kept'⟩ := one s a inv kept
    exact ih inv' kept'

theorem kept_dropAll (inv : Inv C s) (kept : Kept C s) (c : ConnId) : Kept C (s.dropAll c) :=
  (kept_foldl (fun _ id inv kept => ⟨inv_drop inv c id true,
    (quiet_dropServed inv.calls kept.logs.callsSent c id fun is => by cases is).kept kept⟩)
    _ inv kept).2

theorem kept_abortIncoming (inv : Inv C s) (kept : Kept C s) {c : ConnId}
    (shut : (s.conns c).isOpen = false) : Kept C (s.abortIncoming c) := by
  unfold abortIncoming
  obtain ⟨inv', kept'⟩ := kept_foldl (f := abort) (fun _ t inv kept => ⟨inv_abort inv t,
    (quiet_abort inv.calls kept.logs.callsSent t).kept kept⟩)
    ((s.conns c).incoming.map Prod.snd) inv kept
  have only : CallsOnly s (((s.conns c).incoming.map Prod.snd).foldl abort s) :=
    CallsOnly.foldl callsOnly_abort _ s
  have shut' : ((((s.conns c).incoming.map Prod.snd).foldl abort s).conns c).isOpen = false := by
    rw [only.conns c]
    exact shut
  generalize ((s.conns c).incoming.map Prod.snd).foldl abort s = s₁ at inv' kept' shut' ⊢
  refine (idle_noIncoming s₁ shut').keeps inv'.links kept' fun r d opened down => ?_
  have before := kept'.clean.downOpen r d opened down
  dsimp only [setConn]
  grind

theorem kept_closeDown (inv : Inv (some c) s) (kept : Kept (some c) s)
    (shut : (s.conns c).isOpen = false) (error : WireError) :
    Kept none (s.closeDown c error) := by
  have closedAll := fun r (down : (s.relays r).down = some c) =>
    downRelays_closed inv.links error down
  have downAll : ∀ r ∈ s.downRelays c, (s.relays r).down = some c := by
    intro r member
    have held := of_decide_eq_true (List.mem_filter.mp member).2
    exact (inv.links.refs_of c _ r held).1
  have shrinks : Shrinks s
      ((s.downRelays c).foldl (fun s r => s.closeRelay r error false true) s) :=
    Shrinks.foldl (fun s r => shrinks_closeRelay s r error false true) _ s
  have folded : ∀ list : List RelayId, (∀ r ∈ list, (s.relays r).down = some c) →
      Kept (some c) (list.foldl (fun s r => s.closeRelay r error false true) s) := by
    clear closedAll downAll shrinks
    intro list
    induction list generalizing s with
    | nil => exact fun _ => kept
    | cons r rest ih =>
      intro mine
      have lost : s.Lost r := by
        intro d down
        rw [mine r mem_cons_self] at down
        cases down
        exact .inr shut
      have quiet : Quiet s (s.closeRelay r error false true) :=
        quiet_closeRelay inv.calls (.inl rfl) kept.logs.callsSent error (fun _ => lost) true
      refine ih (inv_close inv r error false true) (quiet.kept kept) ?_ fun r' member => ?_
      · rw [quiet.isOpen_eq]
        exact shut
      · rw [quiet.shrinks.relays r']
        exact mine r' (mem_cons_of_mem r member)
  have kept' := folded _ downAll
  unfold closeDown
  generalize (s.downRelays c).foldl (fun s r => s.closeRelay r error false true) s = s₁
    at closedAll shrinks kept' ⊢
  have cleared : Quiet s₁ (s₁.setConn c
      { s₁.conns c with relayedRefs := fun _ => none, relayedCalls := fun _ => none }) :=
    quiet_setConn rfl fun id served found => found
  obtain ⟨logs, clean, started⟩ := cleared.kept kept'
  refine ⟨logs, ⟨clean.aborted, fun r d opened down => ?_⟩, started⟩
  refine .inl ((clean.downOpen r d opened down).resolve_right fun is => ?_)
  cases is
  rw [cleared.shrinks.relays r, shrinks.relays r] at down
  have closed := cleared.shrinks.closed r (closedAll r down)
  rw [opened] at closed
  cases closed

/-- A link is no longer open, or its principal is revoked. -/
theorem kept_shut (inv : Inv none s) (kept : Kept none s) (c : ConnId) (isOpen : Bool)
    (generation : Nat) (opens : isOpen = true → (s.conns c).isOpen = true) :
    Kept (some c) (s.setConn c { s.conns c with isOpen, generation }) := by
  have idle : Idle s (s.setConn c { s.conns c with isOpen, generation }) :=
    idle_setConn (.inl rfl) (fun _ => opens) fun _ => le_rfl
  refine ⟨idle.logs inv.links kept.logs, ⟨idle.aborted kept.clean, fun r d opened down => ?_⟩,
    idle.started kept.started⟩
  have before := kept.clean.downOpen r d opened down
  dsimp only [setConn]
  grind

/-- **A link closes.** -/
theorem kept_closeConn (inv : Inv none s) (kept : Kept none s) (c : ConnId) (reason : Text) :
    Kept none (s.closeConn c reason) := by
  unfold closeConn
  dsimp only
  have shut : Inv (some c) (s.setConn c { s.conns c with isOpen := false }) :=
    inv_shut inv c false (s.conns c).generation fun is => by cases is
  have keptShut : Kept (some c) (s.setConn c { s.conns c with isOpen := false }) :=
    kept_shut inv kept c false (s.conns c).generation fun is => by cases is
  have isShut : ((s.setConn c { s.conns c with isOpen := false }).conns c).isOpen = false := by
    simp only [setConn, update_self]
  generalize s.setConn c { s.conns c with isOpen := false } = s₁ at shut keptShut isShut ⊢
  have dropped := inv_dropAll shut c
  have keptDropped := kept_dropAll shut keptShut c
  have shrinks : Shrinks s₁ (s₁.dropAll c) :=
    Shrinks.foldl (fun s id => shrinks_dropServed s c id true) _ s₁
  have still : ((s₁.dropAll c).conns c).isOpen = false := by
    rw [shrinks.conns c]
    exact isShut
  refine kept_closeDown (inv_abortIncoming dropped still)
    (kept_abortIncoming dropped keptDropped still) ?_ _
  unfold abortIncoming
  have only : CallsOnly (s₁.dropAll c)
      ((((s₁.dropAll c).conns c).incoming.map Prod.snd).foldl abort (s₁.dropAll c)) :=
    CallsOnly.foldl callsOnly_abort _ _
  simp only [setConn, update_self]
  rw [only.conns c]
  exact still

/-- **A principal is revoked.** -/
theorem kept_revoke (inv : Inv none s) (kept : Kept none s) {c : ConnId}
    (isOpen : (s.conns c).isOpen = true) (next : Option (Option P)) :
    Kept none (s.revoke c next) := by
  unfold revoke
  dsimp only
  have shut : Inv (some c) (s.setConn c
      { s.conns c with generation := (s.conns c).generation + 1 }) :=
    inv_shut inv c (s.conns c).isOpen _ fun is => is
  have keptShut : Kept (some c) (s.setConn c
      { s.conns c with generation := (s.conns c).generation + 1 }) :=
    kept_shut inv kept c (s.conns c).isOpen _ fun is => is
  have still : ((s.setConn c
      { s.conns c with generation := (s.conns c).generation + 1 }).conns c).isOpen = true := by
    simpa only [setConn, update_self] using isOpen
  generalize s.setConn c { s.conns c with generation := (s.conns c).generation + 1 } = s₁
    at shut keptShut still ⊢
  have held := inv_closeHeld shut still (chordError "gone" "principal invalidated")
  have keptAll : Kept (some c) (s₁.closeHeld c (chordError "gone" "principal invalidated")) :=
    (kept_foldl (fun _ r inv kept => ⟨inv_close inv r _ true true,
      (quiet_closeRelay inv.calls (.inl rfl) kept.logs.callsSent _
        (fun is => by cases is) true).kept kept⟩) _ shut keptShut).2
  have shrinks : Shrinks s₁ (s₁.closeHeld c (chordError "gone" "principal invalidated")) :=
    Shrinks.foldl (fun s r => shrinks_closeRelay s r _ true true) _ s₁
  have keptHeld : Kept none (s₁.closeHeld c (chordError "gone" "principal invalidated")) := by
    refine ⟨keptAll.logs, ⟨keptAll.clean.aborted, fun r d opened down => ?_⟩, keptAll.started⟩
    rcases keptAll.clean.downOpen r d opened down with isOpen | is
    · exact .inl isOpen
    · cases is
      rw [shrinks.conns c]
      exact .inl still
  cases next with
  | none => exact kept_closeConn held keptHeld c _
  | some principal =>
    have idle : Idle (s₁.closeHeld c (chordError "gone" "principal invalidated"))
        ((s₁.closeHeld c (chordError "gone" "principal invalidated")).setConn c
          { (s₁.closeHeld c (chordError "gone" "principal invalidated")).conns c with principal }) :=
      idle_setConn (.inl rfl) (fun _ is => is) fun _ => le_rfl
    refine idle.keeps held.links keptHeld fun r d opened down => ?_
    have before := keptHeld.clean.downOpen r d opened down
    dsimp only [setConn]
    grind

/-! ### Call frames -/

theorem quiet_act (s : Host P) (c : ConnId) (act : Act P) : Quiet s (s.act c act) where
  shrinks := { Shrinks.refl s with }
  sent := sends_nothing _
  received := rfl
  called := rfl
  values _ _ _ _ is := .inl is
  isOver _ _ _ _ forwarded _ _ _ := .inl forwarded
  aborted _ is _ := ⟨is, rfl⟩
  running _ is := is

theorem quiet_relayCall (running : (s.tasks t).phase = .running) : Quiet s (s.relayCall t r) := by
  have idle : (s.tasks t).phase ≠ .forwarded := by
    rw [running]
    exact fun is => by cases is
  have unsettled : ∀ (task : Task) outcome, (s.tasks t).phase = .settled outcome →
      task.phase = .settled outcome := by
    intro task outcome is
    rw [running] at is
    cases is
  unfold relayCall
  dsimp only
  split
  · exact quiet_settle idle (.inl ⟨_, rfl⟩)
  · rename_i unaborted
    split
    · exact quiet_settle idle (.inl ⟨_, rfl⟩)
    · split
      · refine quiet_setTask rfl (unsettled _) (fun is => absurd is idle)
          (fun value is => by cases is) (fun _ is => ?_) fun is => by cases is
        rcases is with is | is <;> cases is
      · have waits : Quiet s (s.setTask t { s.tasks t with phase := .waiting }) :=
          quiet_setTask rfl (unsettled _) (fun is => absurd is idle)
            (fun value is => by cases is) (fun is _ => absurd is unaborted) fun is => by cases is
        exact waits.trans (quiet_setRelay rfl fun is => is)

theorem quiet_runCall (running : (s.tasks t).phase = .running) (c : ConnId) (hold : Nat)
    (served : Served P) (begin : Begin) : Quiet s (s.runCall t c hold served begin) := by
  have idle : (s.tasks t).phase ≠ .forwarded := by
    rw [running]
    exact fun is => by cases is
  unfold runCall
  split
  · exact quiet_settle idle (.inl ⟨_, rfl⟩)
  · have acted := quiet_act s c (.ran hold ((s.servedPrincipal served).or s.principal))
    have tasks : (s.act c (.ran hold ((s.servedPrincipal served).or s.principal))).tasks =
      s.tasks := rfl
    generalize s.act c (.ran hold ((s.servedPrincipal served).or s.principal)) = s₁
      at acted tasks ⊢
    rw [← tasks] at running
    have marked : Quiet s₁ (s₁.setTask t { s₁.tasks t with aborted := true }) := by
      refine quiet_setTask rfl (fun _ is => is) (fun is => is) (fun value is => .inl is)
        (fun _ is => ?_) fun is => is
      dsimp only at is
      rw [running] at is
      rcases is with is | is <;> cases is
    have still : ((s₁.setTask t { s₁.tasks t with aborted := true }).tasks t).phase = .running := by
      simpa only [setTask, update_self] using running
    dsimp only
    split
    · split
      · exact acted.trans marked
      · exact acted
    · split
      · exact acted.trans (marked.trans (quiet_relayCall still))
      · exact acted.trans (quiet_relayCall running)

/-- A relayed call does not run here. -/
theorem relayCall_started (s : Host P) (t : TaskId) (r : RelayId) :
    ((s.relayCall t r).tasks t).phase ≠ .running := by
  have settled : ∀ outcome, ((s.settle t outcome).tasks t).phase ≠ .running := by
    intro outcome running
    obtain ⟨o, is⟩ := settle_self s t outcome
    rw [is] at running
    cases running
  unfold relayCall
  dsimp only
  split
  · exact settled _
  · split
    · exact settled _
    · split
      · simp only [setTask, update_self]
        exact fun is => by cases is
      · simp only [setTask, setRelay, update_self]
        exact fun is => by cases is

theorem runCall_started (s : Host P) (t : TaskId) (c : ConnId) (hold : Nat) (r : RelayId)
    (begin : Begin) : ((s.runCall t c hold (.relay r) begin).tasks t).phase ≠ .running := by
  unfold runCall
  split
  · intro running
    obtain ⟨o, is⟩ := settle_self s t (.error _)
    rw [is] at running
    cases running
  · exact relayCall_started _ t r

/-- A call frame that is answered at once. -/
theorem logs_refuse (logs : Logs s) {c : ConnId} (isOpen : (s.conns c).isOpen = true)
    (bound : c < s.connCount) (id : Nat) (error : WireError) :
    Logs ({ s with called := s.called ++ [(c, id)] }.send c (.result id (.error error))) := by
  have sent : ({ s with called := s.called ++ [(c, id)] }.send c (.result id (.error error))) =
      { s with
        called := s.called ++ [(c, id)]
        sent := s.sent ++ [(c, .result id (.error error))] } := by
    unfold send
    exact if_pos isOpen
  rw [sent]
  have callIds_eq : callIds (s.sent ++ [(c, Frame.result id (.error error))]) = callIds s.sent := by
    rw [callIds_append]
    exact append_nil _
  have results : resultIds (s.sent ++ [(c, Frame.result id (.error error))]) =
      resultIds s.sent ++ [(c, id)] := by
    rw [resultIds_append]
    rfl
  obtain ⟨callsSent, callFresh, callOnce, call_of⟩ : CallLog { s with
      called := s.called ++ [(c, id)]
      sent := s.sent ++ [(c, .result id (.error error))] } :=
    logs.unsent callIds_eq (fun _ _ _ => Iff.rfl) (fun _ _ _ _ is => is) fun _ _ _ _ => le_rfl
  refine ⟨callsSent, callFresh, callOnce, call_of, ?cancelled, ?current, ?isOver, ?values,
    ?answers, ?atMost, ?atLeast, ?calledBound⟩
  case cancelled =>
    refine cancelled_append logs.cancelled fun d k member => ?_
    cases mem_singleton.mp member
  case current => exact logs.current
  case isOver =>
    intro t r d k relay down sentAs
    refine (logs.isOver t r d k relay down sentAs).imp_right fun isOver => ?_
    exact Over.mono isOver (fun e => mem_append_left _) (fun _ member => member) rfl fun is => is
  case values => exact logs.values
  case answers =>
    intro c' id' value member
    rcases mem_append.mp member with before | later
    · exact logs.answers c' id' value before
    · cases mem_singleton.mp later
  case atMost =>
    intro c' id'
    have before := logs.atMost c' id'
    rw [results, count_append, count_append]
    show _ + s.pending c' id' ≤ _
    omega
  case atLeast =>
    intro c' id' isOpen'
    have before := logs.atLeast c' id' isOpen'
    rw [results, count_append, count_append]
    show _ ≤ _ + s.pending c' id'
    omega
  case calledBound =>
    intro c' id' member
    rcases mem_append.mp member with before | later
    · exact logs.calledBound c' id' before
    · cases mem_singleton.mp later
      exact bound

/-- A call that is not forgotten has begun. -/
theorem Incoming.lt (incoming : Incoming s) (unforgotten : (s.tasks t).forgotten = false) :
    t < s.taskCount := by
  refine Nat.lt_of_not_le fun later => ?_
  have forgotten := incoming.taskBound t later
  rw [unforgotten] at forgotten
  cases forgotten

theorem pending_self (incoming : Incoming s) (unforgotten : (s.tasks t).forgotten = false)
    (isOpen : (s.conns (s.tasks t).origin).isOpen = true) :
    s.pending (s.tasks t).origin (s.tasks t).frame.id = if (s.tasks t).answered then 0 else 1 := by
  unfold pending
  rw [incoming.of_incoming t (incoming.lt unforgotten) unforgotten isOpen]

/-- Elsewhere, only the call's own entry is its. -/
theorem pending_other (incoming : Incoming s) {c : ConnId} {id : Nat}
    (other : (c, id) ≠ ((s.tasks t).origin, (s.tasks t).frame.id)) :
    Assoc.get id (s.conns c).incoming ≠ some t := by
  intro found
  obtain ⟨rfl, rfl, -⟩ := incoming.incoming_of c id t found
  exact other rfl

/-- A call frame becomes a call. -/
theorem logs_addTask (inv : Inv none s) (logs : Logs s) {c : ConnId} {frame : CallFrame}
    (bound : c < s.connCount) (unused : Assoc.get frame.id (s.conns c).incoming = none)
    (relay : Option RelayId) (root : RootRef) :
    Logs ({ s with called := s.called ++ [(c, frame.id)] }.addTask c frame relay root) := by
  have fresh := inv.calls.taskBound s.taskCount (Nat.le_refl _)
  have kept : ∀ t, (s.tasks t).relay ≠ none →
      ({ s with called := s.called ++ [(c, frame.id)] }.addTask c frame relay root).tasks t =
        s.tasks t := by
    intro t relayed
    have other : t ≠ s.taskCount := by
      rintro rfl
      exact relayed fresh.2.2
    simp only [addTask, setConn, setTask, update_of_ne other]
  have new : ({ s with called := s.called ++ [(c, frame.id)] }.addTask c frame relay root).tasks
      s.taskCount = ⟨c, relay, frame, root, .running, false, none, false, false, false⟩ := by
    simp only [addTask, setConn, setTask, update_self]
  have sentOn_iff : ∀ t d k,
      ({ s with called := s.called ++ [(c, frame.id)] }.addTask c frame relay root).SentOn t d k ↔
        s.SentOn t d k := by
    intro t d k
    rcases eq_or_ne t s.taskCount with rfl | other
    · unfold SentOn
      rw [new, fresh.2.1]
      simp
    · unfold SentOn
      simp only [addTask, setConn, setTask, update_of_ne other]
  have pendingAt : ∀ c' id,
      ({ s with called := s.called ++ [(c, frame.id)] }.addTask c frame relay root).pending c' id =
        s.pending c' id + [(c, frame.id)].count (c', id) := by
    intro c' id
    have earlier : ∀ t, Assoc.get id (s.conns c').incoming = some t → t ≠ s.taskCount :=
      fun t found => Nat.ne_of_lt (inv.incoming.incoming_of c' id t found).2.2.1
    unfold Host.pending
    by_cases here : (c, frame.id) = (c', id)
    · cases here
      rw [unused, count_singleton_self]
      simp only [addTask, setConn, setTask, update_self, Assoc.get_set_self]
      rfl
    · rw [count_singleton, if_neg (by simpa using here), Nat.add_zero]
      have same : Assoc.get id (({ s with called := s.called ++ [(c, frame.id)] }.addTask c frame
          relay root).conns c').incoming = Assoc.get id (s.conns c').incoming := by
        dsimp only [addTask, setConn, setTask]
        grind [Assoc.get_set]
      rw [same]
      split
      · rename_i t found
        simp only [addTask, setConn, setTask, update_of_ne (earlier t found)]
      · rfl
  obtain ⟨callsSent, callFresh, callOnce, call_of⟩ :
      CallLog ({ s with called := s.called ++ [(c, frame.id)] }.addTask c frame relay root) :=
    logs.unsent rfl sentOn_iff
    (fun t d k _ is => by
      dsimp only [addTask, setConn, setTask] at is
      grind)
    fun t d k _ => by
      dsimp only [addTask, setConn, setTask]
      grind
  refine ⟨callsSent, callFresh, callOnce, call_of, ?cancelled, ?current, ?isOver, ?values,
    ?answers, ?atMost, ?atLeast, ?calledBound⟩
  case cancelled => exact logs.cancelled
  case current =>
    intro t k sentAs
    have other : t ≠ s.taskCount := by
      rintro rfl
      rw [new] at sentAs
      cases sentAs
    simp only [addTask, setConn, setTask, update_of_ne other] at sentAs ⊢
    exact logs.current t k sentAs
  case isOver =>
    intro t r d k relay' down sentAs
    have other : t ≠ s.taskCount := by
      rintro rfl
      rw [new] at sentAs
      cases sentAs
    simp only [addTask, setConn, setTask, update_of_ne other] at relay' sentAs ⊢
    refine (logs.isOver t r d k relay' down sentAs).imp_right fun isOver => ?_
    unfold Over at isOver ⊢
    dsimp only
    grind
  case values =>
    intro t r value relay' is
    have other : t ≠ s.taskCount := by
      rintro rfl
      rw [new] at is
      cases is
    simp only [addTask, setConn, setTask, update_of_ne other] at relay' is ⊢
    exact logs.values t r value relay' is
  case answers =>
    intro c' id value member
    obtain ⟨t, before, origin, frame', answered, phase⟩ := logs.answers c' id value member
    have other : t ≠ s.taskCount := Nat.ne_of_lt before
    refine ⟨t, Nat.lt_succ_of_lt before, ?_⟩
    simp only [addTask, setConn, setTask, update_of_ne other]
    exact ⟨origin, frame', answered, phase⟩
  case atMost =>
    intro c' id
    have before := logs.atMost c' id
    rw [pendingAt]
    show _ ≤ (s.called ++ [(c, frame.id)]).count (c', id)
    rw [count_append, ← Nat.add_assoc]
    exact Nat.add_le_add_right before _
  case atLeast =>
    intro c' id isOpen
    have wasOpen : (s.conns c').isOpen = true := by
      dsimp only [addTask, setConn, setTask] at isOpen
      grind
    have before := logs.atLeast c' id wasOpen
    rw [pendingAt]
    show (s.called ++ [(c, frame.id)]).count (c', id) ≤ _
    rw [count_append, ← Nat.add_assoc]
    exact Nat.add_le_add_right before _
  case calledBound =>
    intro c' id member
    rcases mem_append.mp member with before | later
    · exact logs.calledBound c' id before
    · cases mem_singleton.mp later
      exact bound

/-- A result is sent. -/
theorem logs_answer (inv : Inv none s) (logs : Logs s) {outcome : Outcome}
    (settled : (s.tasks t).phase = .settled outcome) (unanswered : (s.tasks t).answered = false) :
    Logs (s.answer t outcome) := by
  have unforgotten : (s.tasks t).forgotten = false := by
    refine Bool.eq_false_iff.mpr fun forgotten => ?_
    have answered := inv.incoming.forgotten t forgotten
    rw [unanswered] at answered
    cases answered
  have bound : t < s.taskCount := inv.incoming.lt unforgotten
  have conns : (s.answer t outcome).conns = s.conns := send_conns ..
  have relays : (s.answer t outcome).relays = s.relays := send_relays ..
  have tasks : (s.answer t outcome).tasks =
      update s.tasks t { s.tasks t with answered := true } := send_tasks ..
  have taskAt : ∀ t', (s.answer t outcome).tasks t' =
      { s.tasks t' with answered := ((s.answer t outcome).tasks t').answered } := by
    intro t'
    rw [tasks]
    rcases eq_or_ne t' t with rfl | other
    · rw [update_self]
    · rw [update_of_ne other]
  have sent : (s.answer t outcome).sent = s.sent ++
      if (s.conns (s.tasks t).origin).isOpen then
        [((s.tasks t).origin, Frame.result (s.tasks t).frame.id outcome)]
      else [] := send_sent ..
  have received : (s.answer t outcome).received = s.received := send_received ..
  have called : (s.answer t outcome).called = s.called := send_called ..
  have taskCount : (s.answer t outcome).taskCount = s.taskCount := (send_counts ..).1
  have connCount : (s.answer t outcome).connCount = s.connCount := (send_counts ..).2
  have sentOn_iff : ∀ t' d k, (s.answer t outcome).SentOn t' d k ↔ s.SentOn t' d k := by
    intro t' d k
    unfold SentOn
    rw [taskAt t', relays]
  have calls : callIds (s.answer t outcome).sent = callIds s.sent := by
    rw [sent, callIds_append]
    split
    · exact append_nil _
    · exact append_nil _
  have counts : ∀ c id, (resultIds (s.answer t outcome).sent).count (c, id) +
      (s.answer t outcome).pending c id = (resultIds s.sent).count (c, id) + s.pending c id := by
    intro c id
    have elsewhere : Assoc.get id (s.conns c).incoming ≠ some t →
        (s.answer t outcome).pending c id = s.pending c id := by
      intro apart
      unfold Host.pending
      rw [conns, tasks]
      split
      · rename_i t' found
        have other : t' ≠ t := by
          rintro rfl
          exact apart found
        rw [update_of_ne other]
      · rfl
    rw [sent, resultIds_append]
    split
    · rename_i isOpen
      rw [count_append]
      show _ + [((s.tasks t).origin, (s.tasks t).frame.id)].count (c, id) + _ = _
      by_cases here : ((s.tasks t).origin, (s.tasks t).frame.id) = (c, id)
      · cases here
        have before := pending_self inv.incoming unforgotten isOpen
        have found := inv.incoming.of_incoming t bound unforgotten isOpen
        have after : (s.answer t outcome).pending (s.tasks t).origin (s.tasks t).frame.id = 0 := by
          unfold Host.pending
          rw [conns, found, tasks]
          dsimp only
          rw [update_self]
          rfl
        rw [before, after, unanswered, count_singleton_self]
        rfl
      · rw [elsewhere (pending_other inv.incoming (Ne.symm here)), count_singleton,
          if_neg (by simpa using here)]
        rfl
    · rename_i shut
      have apart : Assoc.get id (s.conns c).incoming ≠ some t := by
        intro found
        obtain ⟨origin, -⟩ := inv.incoming.incoming_of c id t found
        have isOpen := (inv.opened.incoming c id t found).resolve_right fun is => by cases is
        rw [← origin] at isOpen
        exact shut isOpen
      rw [elsewhere apart]
      exact congrArg (fun ids => List.count (c, id) ids + s.pending c id) (append_nil _)
  obtain ⟨callsSent, callFresh, callOnce, call_of⟩ : CallLog (s.answer t outcome) :=
    logs.unsent calls sentOn_iff (fun _ d _ _ is => by rwa [conns] at is)
      fun _ d _ _ => by rw [conns]
  refine ⟨callsSent, callFresh, callOnce, call_of, ?cancelled, ?current, ?isOver, ?values,
    ?answers, ?atMost, ?atLeast, ?calledBound⟩
  case cancelled =>
    rw [sent]
    refine cancelled_append logs.cancelled fun d k member => ?_
    split at member
    · cases mem_singleton.mp member
    · cases member
  case current =>
    intro t'
    rw [taskAt t']
    exact logs.current t'
  case isOver =>
    intro t' r d k
    rw [taskAt t', relays]
    intro relay down sentAs
    refine (logs.isOver t' r d k relay down sentAs).imp_right fun isOver => ?_
    refine Over.mono isOver (fun e member => ?_) (fun e member => received ▸ member)
      (by rw [relays]) fun is => conns ▸ is
    rw [sent]
    exact mem_append_left _ member
  case values =>
    intro t' r value
    rw [taskAt t', relays, received]
    exact logs.values t' r value
  case answers =>
    intro c id value member
    rw [sent] at member
    rw [taskCount]
    rcases mem_append.mp member with before | later
    · obtain ⟨t', bound', origin, frame, answered, phase⟩ := logs.answers c id value before
      refine ⟨t', bound', ?_⟩
      rw [tasks]
      rcases eq_or_ne t' t with rfl | other
      · rw [update_self]
        exact ⟨origin, frame, rfl, phase⟩
      · rw [update_of_ne other]
        exact ⟨origin, frame, answered, phase⟩
    · split at later
      · cases mem_singleton.mp later
        refine ⟨t, bound, ?_⟩
        rw [tasks, update_self]
        exact ⟨rfl, rfl, rfl, settled⟩
      · cases later
  case atMost =>
    intro c id
    rw [counts, called]
    exact logs.atMost c id
  case atLeast =>
    intro c id isOpen
    rw [conns] at isOpen
    rw [counts, called]
    exact logs.atLeast c id isOpen
  case calledBound =>
    intro c id
    rw [called, connCount]
    exact logs.calledBound c id

/-- The id of a call is free again. -/
theorem logs_forget (inv : Inv none s) (logs : Logs s) (answered : (s.tasks t).answered = true)
    (unforgotten : (s.tasks t).forgotten = false) : Logs (s.forget t) := by
  have taskAt : ∀ t', (s.forget t).tasks t' =
      { s.tasks t' with forgotten := ((s.forget t).tasks t').forgotten } := by
    intro t'
    dsimp only [forget, setConn, setTask]
    rcases eq_or_ne t' t with rfl | other
    · rw [update_self]
    · rw [update_of_ne other]
  have connAt : ∀ c, (s.forget t).conns c =
      { s.conns c with incoming := ((s.forget t).conns c).incoming } := by
    intro c
    dsimp only [forget, setConn, setTask]
    rcases eq_or_ne c (s.tasks t).origin with rfl | other
    · rw [update_self]
    · rw [update_of_ne other]
  have sentOn_iff : ∀ t' d k, (s.forget t).SentOn t' d k ↔ s.SentOn t' d k := by
    intro t' d k
    unfold SentOn
    rw [taskAt t']
    rfl
  have pendingAt : ∀ c id, (s.forget t).pending c id = s.pending c id := by
    intro c id
    have taskAnswered : ∀ t', ((s.forget t).tasks t').answered = (s.tasks t').answered := by
      intro t'
      rw [taskAt t']
    have incomingAt : Assoc.get id ((s.forget t).conns c).incoming =
        if c = (s.tasks t).origin ∧ (s.tasks t).frame.id = id then none
        else Assoc.get id (s.conns c).incoming := by
      dsimp only [forget, setConn, setTask]
      grind [Assoc.get_erase]
    unfold Host.pending
    rw [incomingAt]
    split_ifs with here
    · obtain ⟨rfl, rfl⟩ := here
      cases found : Assoc.get (s.tasks t).frame.id (s.conns (s.tasks t).origin).incoming with
      | none => rfl
      | some t' =>
        have isOpen := (inv.opened.incoming _ _ t' found).resolve_right fun is => by cases is
        rw [inv.incoming.of_incoming t (inv.incoming.lt unforgotten) unforgotten isOpen] at found
        cases found
        dsimp only
        rw [answered]
        rfl
    · simp only [taskAnswered]
  obtain ⟨callsSent, callFresh, callOnce, call_of⟩ : CallLog (s.forget t) :=
    logs.unsent rfl sentOn_iff (fun _ d _ _ is => by rwa [connAt d] at is)
      fun _ d _ _ => by rw [connAt d]
  refine ⟨callsSent, callFresh, callOnce, call_of, ?cancelled, ?current, ?isOver, ?values,
    ?answers, ?atMost, ?atLeast, ?calledBound⟩
  case cancelled => exact logs.cancelled
  case current =>
    intro t'
    rw [taskAt t']
    exact logs.current t'
  case isOver =>
    intro t' r d k
    rw [taskAt t']
    intro relay down sentAs
    refine (logs.isOver t' r d k relay down sentAs).imp_right fun isOver => ?_
    refine Over.mono isOver (fun _ member => member) (fun _ member => member) rfl fun is => ?_
    rwa [connAt d] at is
  case values =>
    intro t' r value
    rw [taskAt t']
    exact logs.values t' r value
  case answers =>
    intro c id value member
    obtain ⟨t', bound, origin, frame, answered, phase⟩ := logs.answers c id value member
    refine ⟨t', bound, ?_⟩
    rw [taskAt t']
    exact ⟨origin, frame, answered, phase⟩
  case atMost =>
    intro c id
    rw [pendingAt]
    exact logs.atMost c id
  case atLeast =>
    intro c id
    rw [pendingAt, connAt c]
    exact logs.atLeast c id
  case calledBound => exact logs.calledBound

/-- **A call is forwarded, once.** -/
theorem logs_addRelayCall (inv : Inv none s) (logs : Logs s) {d : ConnId}
    (ready : (s.tasks t).phase = .ready) (relay : (s.tasks t).relay = some r)
    (current : s.current r = true) (down : (s.relays r).down = some d) {frame : CallFrame}
    (isId : frame.id = (s.conns d).nextId) :
    Logs ((s.addRelayCall t r d).send d (.call frame)) := by
  have tasks : ((s.addRelayCall t r d).send d (.call frame)).tasks =
      update s.tasks t
        { s.tasks t with
          phase := .forwarded, sentAs := some (s.conns d).nextId, sentCurrent := s.current r } :=
    send_tasks ..
  have unsent : (s.tasks t).sentAs = none := by
    obtain ⟨-, -, unsent, -⟩ := inv.calls.ready t ready
    exact unsent
  have relayAt : ∀ r', (((s.addRelayCall t r d).send d (.call frame)).relays r').down =
        (s.relays r').down ∧
      (((s.addRelayCall t r d).send d (.call frame)).relays r').downId = (s.relays r').downId := by
    intro r'
    rw [send_relays]
    dsimp only [addRelayCall, setTask, setRelay, setConn]
    grind
  have connAt : ∀ c, (((s.addRelayCall t r d).send d (.call frame)).conns c).isOpen =
        (s.conns c).isOpen ∧
      (((s.addRelayCall t r d).send d (.call frame)).conns c).incoming = (s.conns c).incoming ∧
      (((s.addRelayCall t r d).send d (.call frame)).conns c).nextId =
        (s.conns c).nextId + if c = d then 1 else 0 := by
    intro c
    rw [send_conns]
    dsimp only [addRelayCall, setTask, setRelay, setConn]
    grind
  have sent : ((s.addRelayCall t r d).send d (.call frame)).sent =
      s.sent ++ if (s.conns d).isOpen then [(d, .call frame)] else [] := by
    have isOpen : ((s.addRelayCall t r d).conns d).isOpen = (s.conns d).isOpen := by
      simp only [addRelayCall, setTask, setRelay, setConn, update_self]
    rw [send_sent, isOpen]
    rfl
  have received : ((s.addRelayCall t r d).send d (.call frame)).received = s.received :=
    send_received ..
  have called : ((s.addRelayCall t r d).send d (.call frame)).called = s.called := send_called ..
  have taskCount : ((s.addRelayCall t r d).send d (.call frame)).taskCount = s.taskCount :=
    (send_counts ..).1
  have connCount : ((s.addRelayCall t r d).send d (.call frame)).connCount = s.connCount :=
    (send_counts ..).2
  generalize ((s.addRelayCall t r d).send d (.call frame)) = after
    at tasks relayAt connAt sent received called taskCount connCount ⊢
  have calls : callIds after.sent =
      callIds s.sent ++ if (s.conns d).isOpen then [(d, (s.conns d).nextId)] else [] := by
    rw [sent, callIds_append]
    split
    · rw [← isId]
      rfl
    · rfl
  have results : resultIds after.sent = resultIds s.sent := by
    rw [sent, resultIds_append]
    split
    · exact append_nil _
    · exact append_nil _
  have self : after.SentOn t d (s.conns d).nextId := by
    unfold SentOn
    rw [tasks, update_self]
    exact ⟨rfl, r, relay, (relayAt r).1.trans down⟩
  have sentOn_of : ∀ t' d' k, s.SentOn t' d' k → after.SentOn t' d' k := by
    intro t' d' k sentOn
    obtain ⟨sentAs, r', relay', down'⟩ := sentOn
    have other : t' ≠ t := by
      rintro rfl
      rw [unsent] at sentAs
      cases sentAs
    unfold SentOn
    rw [tasks, update_of_ne other]
    exact ⟨sentAs, r', relay', (relayAt r').1.trans down'⟩
  have of_sentOn : ∀ t' d' k, after.SentOn t' d' k →
      s.SentOn t' d' k ∨ t' = t ∧ d' = d ∧ k = (s.conns d).nextId := by
    intro t' d' k sentOn
    obtain ⟨sentAs, r', relay', down'⟩ := sentOn
    rw [tasks] at sentAs relay'
    rw [(relayAt r').1] at down'
    rcases eq_or_ne t' t with rfl | other
    · rw [update_self] at sentAs relay'
      rw [relay] at relay'
      cases relay'
      rw [down] at down'
      cases down'
      exact .inr ⟨rfl, rfl, (Option.some.inj sentAs).symm⟩
    · rw [update_of_ne other] at sentAs relay'
      exact .inl ⟨sentAs, r', relay', down'⟩
  have pendingAt : ∀ c id, after.pending c id = s.pending c id := by
    intro c id
    have answeredAt : ∀ t', (after.tasks t').answered = (s.tasks t').answered := by
      intro t'
      rw [tasks]
      rcases eq_or_ne t' t with rfl | other
      · rw [update_self]
      · rw [update_of_ne other]
    unfold Host.pending
    rw [(connAt c).2.1]
    simp only [answeredAt]
  constructor
  case callsSent =>
    intro t' d' k sentOn isOpen
    rw [(connAt d').1] at isOpen
    rw [calls]
    rcases of_sentOn t' d' k sentOn with before | ⟨-, rfl, rfl⟩
    · exact mem_append_left _ (logs.callsSent t' d' k before isOpen)
    · rw [if_pos isOpen]
      exact mem_append_right _ (mem_singleton_self _)
  case callFresh =>
    intro d' k member
    rw [(connAt d').2.2]
    rw [calls] at member
    rcases mem_append.mp member with before | new
    · exact Nat.lt_add_right _ (logs.callFresh d' k before)
    · split at new
      · cases mem_singleton.mp new
        rw [if_pos rfl]
        exact Nat.lt_succ_self _
      · cases new
  case callOnce =>
    rw [calls]
    split
    · refine List.nodup_append.mpr ⟨logs.callOnce, nodup_singleton _, ?_⟩
      intro e before e' new same
      cases mem_singleton.mp new
      rw [same] at before
      exact Nat.lt_irrefl _ (logs.callFresh d _ before)
    · rw [append_nil]
      exact logs.callOnce
  case call_of =>
    intro d' k member
    rw [calls] at member
    rcases mem_append.mp member with before | new
    · obtain ⟨t', sentOn⟩ := logs.call_of d' k before
      exact ⟨t', sentOn_of t' d' k sentOn⟩
    · split at new
      · cases mem_singleton.mp new
        exact ⟨t, self⟩
      · cases new
  case cancelled =>
    rw [sent]
    refine cancelled_append logs.cancelled fun d' k member => ?_
    split at member
    · cases mem_singleton.mp member
    · cases member
  case current =>
    intro t' k
    rw [tasks]
    rcases eq_or_ne t' t with rfl | other
    · rw [update_self]
      exact fun _ => current
    · rw [update_of_ne other]
      exact logs.current t' k
  case isOver =>
    intro t' r' d' k
    rw [tasks, (relayAt r').1]
    rcases eq_or_ne t' t with rfl | other
    · rw [update_self]
      exact fun _ _ _ => .inl rfl
    · rw [update_of_ne other]
      intro relay' down' sentAs
      refine (logs.isOver t' r' d' k relay' down' sentAs).imp_right fun isOver => ?_
      refine Over.mono isOver (fun e member => ?_) (fun e member => received ▸ member)
        (relayAt r').2 fun is => (connAt d').1 ▸ is
      rw [sent]
      exact mem_append_left _ member
  case values =>
    intro t' r' value
    rw [tasks, (relayAt r').1, received]
    rcases eq_or_ne t' t with rfl | other
    · rw [update_self]
      exact fun _ is => by cases is
    · rw [update_of_ne other]
      exact logs.values t' r' value
  case answers =>
    intro c id value member
    rw [sent] at member
    rw [taskCount]
    rcases mem_append.mp member with before | new
    · obtain ⟨t', bound, origin, frame', answered, phase⟩ := logs.answers c id value before
      have other : t' ≠ t := by
        rintro rfl
        rw [ready] at phase
        cases phase
      refine ⟨t', bound, ?_⟩
      rw [tasks, update_of_ne other]
      exact ⟨origin, frame', answered, phase⟩
    · split at new
      · cases mem_singleton.mp new
      · cases new
  case atMost =>
    intro c id
    rw [results, pendingAt, called]
    exact logs.atMost c id
  case atLeast =>
    intro c id
    rw [results, pendingAt, called, (connAt c).1]
    exact logs.atLeast c id
  case calledBound =>
    intro c id
    rw [called, connCount]
    exact logs.calledBound c id

/-! ### Steps -/

/-- **The condition.** When a call goes on after its race, its signal has not aborted; when a
relay's route returns, the link that it returns is still open. -/
def Meets (s : Host P) : Event P → Prop
  | .resume t => ∀ r, (s.tasks t).relay = some r → (s.relays r).closed = false →
      (s.tasks t).aborted = false
  | .returned r => ∀ d, (s.relays r).routing = .returning d → s.current r = true →
      (s.conns d).isOpen = true
  | _ => True

/-- Every step of a run meets the condition. -/
def RunMeets (s : Host P) : List (Event P) → Prop
  | [] => True
  | event :: rest => s.Meets event ∧ ∀ next, s.step event = some next → next.RunMeets rest

theorem Idle.stays (idle : Idle s after) (links : Links K s) (kept : Kept C s)
    (relays : ∀ r d, (after.relays r).closed = false → (after.relays r).down = some d →
      (s.relays r).closed = false ∧ (s.relays r).down = some d)
    (isOpen : ∀ d, (s.conns d).isOpen = true → (after.conns d).isOpen = true) : Kept C after := by
  refine idle.keeps links kept fun r d opened down => ?_
  obtain ⟨opened', down'⟩ := relays r d opened down
  exact (kept.clean.downOpen r d opened' down').imp_left (isOpen d)

theorem kept_send {frame : Frame P} (inv : Inv none s) (kept : Kept C s)
    (still : Frame.Still frame) (c : ConnId) : Kept C (s.send c frame) := by
  refine (idle_send still c).stays inv.links kept (fun r d opened down => ?_) fun d isOpen => ?_
  · rw [send_relays] at opened down
    exact ⟨opened, down⟩
  · rw [send_conns]
    exact isOpen

theorem kept_setRelay {relay : RelayRef P} (inv : Inv none s) (kept : Kept C s)
    (down : relay.down = (s.relays r).down) (downId : relay.downId = (s.relays r).downId)
    (closed : relay.closed = (s.relays r).closed) : Kept C (s.setRelay r relay) := by
  refine (idle_setRelay down downId).stays inv.links kept (fun r' d opened down' => ?_)
    fun d isOpen => isOpen
  dsimp only [setRelay] at opened down'
  grind

theorem kept_routeOn (inv : Inv none s) (kept : Kept C s) (r : RelayId) (next : Routing) :
    Kept C (s.routeOn r next) := kept_setRelay inv kept rfl rfl rfl

theorem kept_authorized (inv : Inv none s) (kept : Kept C s) (r : RelayId) (granted : Bool)
    (next : Routing) : Kept C (s.authorized r granted next) := by
  unfold authorized
  dsimp only
  split
  · refine kept_routeOn ?_ ?_ r next
    · exact ⟨{ inv.links with }, { inv.calls with }, { inv.incoming with }, { inv.opened with }⟩
    · exact (idle_granted s _).stays inv.links kept (fun _ _ opened down => ⟨opened, down⟩)
        fun _ isOpen => isOpen
  · exact kept_setRelay inv kept rfl rfl rfl

theorem kept_conn {c : ConnId} {conn : Connection P} (inv : Inv none s) (kept : Kept C s)
    (incoming : conn.incoming = (s.conns c).incoming) (isOpen : conn.isOpen = (s.conns c).isOpen)
    (nextId : (s.conns c).nextId ≤ conn.nextId) : Kept C (s.setConn c conn) := by
  refine (idle_setConn (.inl incoming) (fun _ is => isOpen.symm.trans is) fun _ => nextId).stays inv.links
    kept
    (fun r d opened down => ⟨opened, down⟩) fun d is => ?_
  dsimp only [setConn]
  grind

theorem kept_onHold (inv : Inv none s) (kept : Kept none s) {c : ConnId}
    (isOpen : (s.conns c).isOpen = true) (frame : HoldFrame P) (acquire : Acquire) :
    Kept none (s.onHold c frame acquire) := by
  unfold onHold
  split
  · exact kept_closeConn inv kept c _
  · dsimp only
    split
    · split
      · exact kept_send inv kept (by exact trivial) c
      · refine (idle_addRelay inv.calls c frame _ _).stays inv.links kept
          (fun r d opened down => ?_) fun d is => ?_
        · dsimp only [addRelay, setConn, setRelay] at opened down
          grind
        · dsimp only [addRelay, setConn, setRelay]
          grind
    · split
      · exact kept_send inv kept (by exact trivial) c
      · refine kept_conn (inv_act inv c _) ?_ rfl rfl (Nat.le_refl _)
        exact (idle_act s c _).stays inv.links kept (fun _ _ opened down => ⟨opened, down⟩)
          fun _ is => is

theorem kept_onCall (inv : Inv none s) (kept : Kept none s) {c : ConnId}
    (isOpen : (s.conns c).isOpen = true) (frame : CallFrame) (started : RootRef) (begin : Begin) :
    Kept none (s.onCall c frame started begin) := by
  have bound : c < s.connCount := by
    refine Nat.lt_of_not_le fun later => ?_
    have shut := inv.opened.connBound c later
    rw [isOpen] at shut
    cases shut
  have refused : ∀ error : WireError,
      Kept none ({ s with called := s.called ++ [(c, frame.id)] }.send c
        (.result frame.id (.error error))) := by
    intro error
    refine ⟨logs_refuse kept.logs isOpen bound frame.id error,
      ⟨fun t => ?_, fun r d => ?_⟩, fun t r => ?_⟩
    · rw [send_tasks]
      exact kept.clean.aborted t
    · rw [send_relays, send_conns]
      exact kept.clean.downOpen r d
    · rw [send_tasks]
      exact kept.started t r
  unfold onCall
  split
  · exact kept_closeConn inv kept c _
  · rename_i absent
    have unused : Assoc.get frame.id (s.conns c).incoming = none := by
      simpa [Assoc.has] using absent
    dsimp only
    split
    · exact refused _
    · split
      · exact refused _
      · rename_i served found
        generalize (if (s.conns c).client then started else frame.root.getD started) = root
        have logs := logs_addTask inv kept.logs bound unused (servedRelay served) root
        have running : (({ s with called := s.called ++ [(c, frame.id)] }.addTask c frame
            (servedRelay served) root).tasks s.taskCount).phase = .running := by
          simp only [addTask, setConn, setTask, update_self]
        have quiet := quiet_runCall running c frame.hold served begin
        refine ⟨quiet.logs logs, quiet.clean ⟨fun t => ?_, fun r d opened down => ?_⟩,
          fun t r relay phase => ?_⟩
        · have before := kept.clean.aborted t
          dsimp only [addTask, setConn, setTask]
          grind
        · have before := kept.clean.downOpen r d opened down
          dsimp only [addTask, setConn, setTask]
          grind
        · have ran := quiet.running t phase
          rw [quiet.shrinks.tasks t] at relay
          rcases eq_or_ne t s.taskCount with rfl | other
          · simp only [addTask, setConn, setTask, update_self] at relay
            cases served with
            | «local» principal origin => cases relay
            | relay r' => exact runCall_started _ _ c frame.hold r' begin phase
          · simp only [addTask, setConn, setTask, update_of_ne other] at relay ran
            exact kept.started t r relay ran

theorem kept_resume (inv : Inv none s) (kept : Kept none s) (ready : (s.tasks t).phase = .ready)
    (relay : (s.tasks t).relay = some r)
    (meets : (s.relays r).closed = false → (s.tasks t).aborted = false) :
    Kept none (s.resume t r) := by
  unfold resume
  dsimp only
  split
  · refine (quiet_settle ?_ (.inl ⟨_, rfl⟩)).kept kept
    rw [ready]
    exact fun is => by cases is
  · rename_i opened
    split
    · exact kept
    · rename_i d down
      refine ⟨logs_addRelayCall inv kept.logs ready relay
        (current_of_open inv (by simpa using opened)) down rfl,
        ⟨fun t' => ?_, fun r' d' opened' down' => ?_⟩, fun t' r' relay' => ?_⟩
      · have before := kept.clean.aborted t'
        have here := meets (by simpa using opened)
        rw [send_tasks]
        dsimp only [addRelayCall, setConn, setTask, setRelay]
        grind
      · have before := kept.clean.downOpen r' d'
        rw [send_relays] at opened' down'
        rw [send_conns]
        dsimp only [addRelayCall, setConn, setTask, setRelay] at opened' down' ⊢
        grind
      · have before := kept.started t' r'
        rw [send_tasks] at relay' ⊢
        dsimp only [addRelayCall, setConn, setTask, setRelay] at relay' ⊢
        grind

theorem kept_received (inv : Inv none s) (kept : Kept C s) (more : List (ConnId × Frame P)) :
    Kept C { s with received := s.received ++ more } :=
  (idle_received s more).stays inv.links kept (fun _ _ opened down => ⟨opened, down⟩)
    fun _ isOpen => isOpen

theorem kept_wantState (inv : Inv none s) (kept : Kept C s) (r : RelayId) (wanted : Bool) :
    Kept C (s.wantState r wanted) := by
  unfold wantState
  dsimp only
  split
  · exact kept
  · have marked : Kept C (s.setRelay r { s.relays r with stateWanted := wanted }) :=
      kept_setRelay inv kept rfl rfl rfl
    have inv' : Inv none (s.setRelay r { s.relays r with stateWanted := wanted }) :=
      ⟨links_setRelay inv.links none rfl (inv.links.routeBound r) (inv.links.unrouted r)
          (inv.links.routed r),
        calls_setRelay inv.calls rfl, incoming_setRelay inv.incoming rfl,
        opened_setRelay inv.opened rfl rfl rfl⟩
    split
    · refine kept_send inv' marked ?_ _
      split <;> exact trivial
    · exact marked

theorem kept_resync (inv : Inv none s) (kept : Kept C s) (r : RelayId) (m : Text) :
    Kept C (s.resync r m) := by
  unfold resync
  split
  · exact kept_send inv kept (by exact trivial) _
  · exact kept

theorem openRelay_relays (opened : (s.relays r).closed = false) (d : ConnId) :
    (s.openRelay r d).relays = (s.goDown r d).relays ∧
      (s.openRelay r d).conns = (s.goDown r d).conns := by
  unfold openRelay
  rw [if_neg (by simp [opened])]
  dsimp only
  rw [(resolveWaiters_eq _ _).1]
  exact ⟨send_relays .., send_conns ..⟩

/-- A relay opens on a link that is open. -/
theorem kept_routed (inv : Inv none s) (kept : Kept none s) {d : ConnId}
    (returning : (s.relays r).routing = .returning d)
    (meets : s.current r = true → (s.conns d).isOpen = true) : Kept none (s.routed r d) := by
  have marked : Kept none (s.setRouting r .done) := kept_setRelay inv kept rfl rfl rfl
  have calls : Calls none (s.setRouting r .done) := calls_setRelay inv.calls rfl
  have links : Links (some r) (s.setRouting r .done) :=
    links_setRelay inv.links (some r) rfl (fun d is => by rcases is with is | is <;> cases is)
      (fun is => absurd rfl is) fun _ is => absurd rfl is
  have relay : (s.setRouting r .done).relays r = { s.relays r with routing := .done } := by
    simp only [setRouting, setRelay, update_self]
  have conns : (s.setRouting r .done).conns = s.conns := rfl
  have same : (s.setRouting r .done).current r = s.current r := by
    unfold current
    rw [relay, conns]
  unfold routed
  dsimp only
  rw [same]
  split
  · rename_i current
    have isOpen := meets current
    have opened : ((s.setRouting r .done).relays r).closed = false := by
      rw [relay]
      unfold Host.current at current
      simpa using (Bool.and_eq_true_iff.mp (Bool.and_eq_true_iff.mp current).1).1
    have unopened : ((s.setRouting r .done).relays r).down = none := by
      rw [relay]
      exact inv.links.unrouted r (by rw [returning]; exact fun is => by cases is)
    obtain ⟨relays, conns'⟩ := openRelay_relays opened d
    refine (idle_openRelay calls d unopened).keeps links marked fun r' d' opened' down' => ?_
    rw [relays] at opened' down'
    rw [conns']
    have before := marked.clean.downOpen r' d'
    rw [conns] at before
    dsimp only [goDown, setConn, setRelay] at opened' down' ⊢
    rw [conns]
    grind
  · exact marked

theorem kept_rejected (inv : Inv none s) (kept : Kept none s) (r : RelayId) (error : WireError) :
    Kept none (s.rejected r error) := by
  have marked : Kept none (s.setRouting r .done) := kept_setRelay inv kept rfl rfl rfl
  have calls : Calls none (s.setRouting r .done) := calls_setRelay inv.calls rfl
  exact (quiet_closeRelay calls (.inl rfl) marked.logs.callsSent error (fun is => by cases is)
    true).kept marked

/-- **One step that meets the condition keeps the logs.** -/
theorem kept_step (inv : Inv none s) (kept : Kept none s) {event : Event P}
    (stepped : s.step event = some after) (meets : s.Meets event) : Kept none after := by
  cases event with
  | accept name upstream client originId principal maxCalls =>
    cases stepped
    refine (idle_accept s ..).keeps inv.links kept fun r d opened down => ?_
    have before := kept.clean.downOpen r d opened down
    have bound := inv.links.downBound r d down
    simpa only [accept, setConn, update_of_ne (Nat.ne_of_lt bound)] using before
  | hold c frame acquire =>
    obtain ⟨isOpen, rfl⟩ := of_guard stepped
    exact kept_onHold inv kept isOpen frame acquire
  | release c id =>
    obtain ⟨isOpen, rfl⟩ := of_guard stepped
    exact (quiet_dropServed inv.calls kept.logs.callsSent c id fun is => by cases is).kept kept
  | call c frame started begin =>
    obtain ⟨isOpen, rfl⟩ := of_guard stepped
    exact kept_onCall inv kept isOpen frame started begin
  | cancel c id =>
    obtain ⟨isOpen, is⟩ := ite_none_right_eq_some.mp stepped
    split at is <;> cases is
    · exact (quiet_abort inv.calls kept.logs.callsSent _).kept kept
    · exact kept
  | wantState c hold wanted =>
    obtain ⟨isOpen, is⟩ := ite_none_right_eq_some.mp stepped
    split at is <;> cases is
    · exact kept_wantState inv kept _ wanted
    · exact kept
  | resync c hold m =>
    obtain ⟨isOpen, is⟩ := ite_none_right_eq_some.mp stepped
    split at is <;> cases is
    · exact kept_resync inv kept _ m
    · exact kept
  | result c id outcome =>
    obtain ⟨isOpen, is⟩ := ite_none_right_eq_some.mp stepped
    have heard := kept_received inv kept [(c, Frame.result id outcome)]
    have inv' := inv_received inv (s.received ++ [(c, Frame.result id outcome)])
    dsimp only at is
    split at is <;> cases is
    · rename_i t found
      obtain ⟨phase, sentAs, r, relay, down⟩ := inv.calls.relayedCalls_of c id t found
      have mine : ∀ r' d k, (s.tasks t).relay = some r' → (s.relays r').down = some d →
          (s.tasks t).sentAs = some k → d = c ∧ k = id := by
        intro r' d k relay' down' sentAs'
        rw [relay] at relay'
        cases relay'
        rw [down] at down'
        cases down'
        rw [sentAs] at sentAs'
        cases sentAs'
        exact ⟨rfl, rfl⟩
      have here : (c, Frame.result id outcome) ∈ s.received ++ [(c, Frame.result id outcome)] :=
        mem_append_right _ (mem_singleton_self _)
      refine (quiet_finish inv'.calls (fun r' d k relay' down' sentAs' => ?_)
        fun value is r' d k relay' down' sentAs' => ?_).kept heard
      · obtain ⟨rfl, rfl⟩ := mine r' d k relay' down' sentAs'
        exact .inl ⟨outcome, here⟩
      · obtain ⟨rfl, rfl⟩ := mine r' d k relay' down' sentAs'
        subst is
        exact here
    · exact heard
  | gone c id error =>
    obtain ⟨isOpen, is⟩ := ite_none_right_eq_some.mp stepped
    have heard := kept_received inv kept [(c, Frame.gone id error)]
    have inv' := inv_received inv (s.received ++ [(c, Frame.gone id error)])
    dsimp only at is
    split at is <;> cases is
    · rename_i r found
      obtain ⟨down, downId, -⟩ := inv.links.refs_of c id r found
      refine (quiet_closeRelay inv'.calls (.inl rfl) heard.logs.callsSent error (fun _ d is => ?_)
        true).kept heard
      have isDown : some d = some c := is.symm.trans down
      cases isDown
      refine .inl ⟨error, ?_⟩
      dsimp only
      rw [downId]
      exact mem_append_right _ (mem_singleton_self _)
    · exact heard
  | authorize r granted | reauthorize r granted down =>
    obtain ⟨routing, rfl⟩ := of_guard stepped
    exact kept_authorized inv kept r granted _
  | resolve r =>
    obtain ⟨routing, rfl⟩ := of_guard stepped
    exact kept_routeOn inv kept r _
  | synced r =>
    dsimp only [step] at stepped
    split at stepped
    · cases stepped
      exact kept_routeOn inv kept r _
    · cases stepped
  | returned r =>
    dsimp only [step] at stepped
    split at stepped
    · rename_i down routing
      cases stepped
      exact kept_routed inv kept routing (meets down routing)
    · cases stepped
  | fail r error =>
    dsimp only [step] at stepped
    split at stepped
    · cases stepped
    · cases stepped
    · cases stepped
      exact kept_setRelay inv kept rfl rfl rfl
  | rejected r =>
    dsimp only [step] at stepped
    split at stepped
    · cases stepped
      exact kept_rejected inv kept r _
    · cases stepped
  | resume t =>
    dsimp only [step] at stepped
    split at stepped
    · rename_i ready relay
      cases stepped
      exact kept_resume inv kept ready relay (meets _ relay)
    · cases stepped
  | settle t outcome =>
    dsimp only [step] at stepped
    split at stepped
    · rename_i running unrelayed
      cases stepped
      refine (quiet_settle ?_ (.inr unrelayed)).kept kept
      rw [running]
      exact fun is => by cases is
    · cases stepped
  | answer t =>
    dsimp only [step] at stepped
    split at stepped
    · rename_i settled unanswered
      cases stepped
      refine ⟨logs_answer inv kept.logs settled unanswered, ⟨fun t' => ?_, fun r d => ?_⟩,
        fun t' r => ?_⟩
      · have before := kept.clean.aborted t'
        unfold answer
        dsimp only
        rw [send_tasks]
        dsimp only [setTask]
        grind
      · unfold answer
        dsimp only
        rw [send_relays, send_conns]
        exact kept.clean.downOpen r d
      · have before := kept.started t' r
        unfold answer
        dsimp only
        rw [send_tasks]
        dsimp only [setTask]
        grind
    · cases stepped
  | forget t =>
    obtain ⟨answered, rfl⟩ := of_guard stepped
    refine ⟨logs_forget inv kept.logs answered.1 (by simpa using answered.2),
      ⟨fun t' => ?_, fun r d opened down => ?_⟩, fun t' r => ?_⟩
    · have before := kept.clean.aborted t'
      dsimp only [forget, setConn, setTask]
      grind
    · have before := kept.clean.downOpen r d opened down
      dsimp only [forget, setConn, setTask]
      grind
    · have before := kept.started t' r
      dsimp only [forget, setConn, setTask]
      grind
  | abort t =>
    obtain ⟨bound, rfl⟩ := of_guard stepped
    exact (quiet_abort inv.calls kept.logs.callsSent t).kept kept
  | take c =>
    cases stepped
    exact kept_conn inv kept rfl rfl (Nat.le_succ _)
  | revoke c next =>
    obtain ⟨isOpen, rfl⟩ := of_guard stepped
    exact kept_revoke inv kept isOpen next
  | close c reason =>
    obtain ⟨isOpen, rfl⟩ := of_guard stepped
    exact kept_closeConn inv kept c reason
  | ended c id error =>
    dsimp only [step] at stepped
    split at stepped
    · rename_i principal origin found
      cases stepped
      refine kept_send (inv_drop inv c id false) ?_ (by exact trivial) c
      refine (quiet_dropServed inv.calls kept.logs.callsSent c id fun _ r is => ?_).kept kept
      rw [found] at is
      cases is
    · cases stepped

theorem kept_start (name : Text) (principal : Option P) : Kept none (start name principal) where
  logs := by constructor <;> simp [start, CallsSent, SentOn, callIds, resultIds, Host.pending]
  clean := by constructor <;> simp [start]
  started := by simp [Started, start]

/-- **A run whose steps meet the condition keeps the logs.** -/
theorem kept_run (inv : Inv none s) (kept : Kept none s) {events : List (Event P)}
    (ran : s.run events = some after) (meets : s.RunMeets events) :
    Inv none after ∧ Kept none after := by
  induction events generalizing s with
  | nil =>
    cases ran
    exact ⟨inv, kept⟩
  | cons event rest ih =>
    obtain ⟨next, stepped, ran⟩ := Option.bind_eq_some_iff.mp ran
    obtain ⟨here, later⟩ := meets
    exact ih (inv_step inv stepped) (kept_step inv kept stepped here) ran (later next stepped)

end Host

end TianGong.Relay
