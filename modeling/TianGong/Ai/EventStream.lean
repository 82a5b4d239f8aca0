/-
**Event streams: `ai/utils/event-stream.ts`.**

Producers push events and end the stream, iterators ask for the next event. An iterator that finds none
waits with a promise, and goes on in a later turn once that is resolved; any other action may come in
between. An iterator is asked again only when it has yielded.

* `EventStream.noneLeft_iff`: no iterator is left waiting exactly when a terminal event finds one
  waiting iterator at most.
* `EventStream.delivers`: all of it, for every interleaving.
* `EventStream.stranded`: two iterators wait, and the terminal event strands one of them.

An action of an iterator that cannot take it changes nothing. `handed` is a record of who was handed
which event; no function reads it.
-/

import Mathlib.Data.List.Induction
import Mathlib.Data.List.Nodup

namespace TianGong.Ai

open List
open Function (update_of_ne update_self)

/-! ### Queues -/

/-- A queue of two stacks, each with its top first. -/
structure FifoQueue (α : Type) where
  incoming : List α
  outgoing : List α

namespace FifoQueue

variable {α : Type}

def empty : FifoQueue α := ⟨[], []⟩

def length (q : FifoQueue α) : Nat := q.incoming.length + q.outgoing.length

def enqueue (value : α) (q : FifoQueue α) : FifoQueue α := { q with incoming := value :: q.incoming }

/-- Pops every incoming value and pushes it on the outgoing stack. -/
def pour : List α → List α → List α
  | [], outgoing => outgoing
  | value :: incoming, outgoing => pour incoming (value :: outgoing)

def dequeue (q : FifoQueue α) : Option α × FifoQueue α :=
  let q := if q.outgoing.isEmpty then ⟨[], pour q.incoming q.outgoing⟩ else q
  (q.outgoing.head?, { q with outgoing := q.outgoing.tail })

/-- What a queue holds, in order. -/
def contents (q : FifoQueue α) : List α := q.outgoing ++ q.incoming.reverse

@[simp] theorem contents_enqueue (value : α) (q : FifoQueue α) :
    (q.enqueue value).contents = q.contents ++ [value] := by
  simp [contents, enqueue]

theorem length_eq (q : FifoQueue α) : q.length = q.contents.length := by
  rw [length, contents, length_append, length_reverse, Nat.add_comm]

theorem pour_eq (incoming outgoing : List α) : pour incoming outgoing = incoming.reverse ++ outgoing := by
  induction incoming generalizing outgoing with
  | nil => rfl
  | cons value incoming ih => rw [pour, ih, reverse_cons, append_assoc, singleton_append]

/-- **A queue gives what came first.** -/
theorem dequeue_spec (q : FifoQueue α) :
    q.dequeue.1 = q.contents.head? ∧ q.dequeue.2.contents = q.contents.tail := by
  obtain ⟨incoming, outgoing⟩ := q
  cases outgoing with
  | nil => simp [dequeue, contents, pour_eq]
  | cons value outgoing => simp [dequeue, contents]

end FifoQueue

/-! ### The stream -/

/-- What is done with a stream. -/
inductive Action (I T R : Type) where
  | push (event : T)
  | finish (result : Option R)
  | ask (iterator : I)
  | resume (iterator : I)

/-- Where an iterator is: before its next `next()`, at its promise, behind it with what it resolved to,
or returned. -/
inductive Iterating (T : Type) where
  | idle
  | waiting
  | woken (event : Option T)
  | finished

structure EventStream (I T R : Type) where
  queue : FifoQueue T
  waiting : FifoQueue I
  done : Bool
  result : Option R
  settled : Bool
  iterators : I → Iterating T
  yielded : I → List T
  handed : List (I × T)

namespace EventStream

variable {I T R : Type} [DecidableEq I]

def start : EventStream I T R where
  queue := .empty
  waiting := .empty
  done := false
  result := none
  settled := false
  iterators _ := .idle
  yielded _ := []
  handed := []

/-- An iterator's promise is resolved. -/
def wake (s : EventStream I T R) (i : I) (event : Option T) : EventStream I T R :=
  { s with iterators := Function.update s.iterators i (.woken event) }

/-- An iterator yields an event. -/
def yieldTo (s : EventStream I T R) (i : I) (event : T) : EventStream I T R :=
  { s with
    iterators := Function.update s.iterators i .idle
    yielded := Function.update s.yielded i (s.yielded i ++ [event]) }

/-- To the first waiting consumer, or into the queue. -/
def deliver (s : EventStream I T R) (event : T) : EventStream I T R :=
  match s.waiting.dequeue with
  | (some waiter, waiting) =>
    { s with waiting := waiting, handed := s.handed ++ [(waiter, event)] }.wake waiter (some event)
  | (none, waiting) => { s with waiting := waiting, queue := s.queue.enqueue event }

/-- `waiter({ done: true })`, while consumers wait. -/
def notify : Nat → EventStream I T R → EventStream I T R
  | 0, s => s
  | n + 1, s =>
    match s.waiting.dequeue with
    | (some waiter, waiting) => notify n ({ s with waiting := waiting }.wake waiter none)
    | (none, waiting) => { s with waiting := waiting }

/-- `end`. A promise that is resolved stays as it is. -/
def finish (result : Option R) (s : EventStream I T R) : EventStream I T R :=
  let ended := { s with done := true, result := s.result.or result, settled := true }
  if s.done then ended else notify ended.waiting.length ended

/-- One turn of the loop of an iterator. -/
def ask (i : I) (s : EventStream I T R) : EventStream I T R :=
  match s.iterators i with
  | .idle =>
    match s.queue.dequeue with
    | (some event, queue) => { s with queue := queue, handed := s.handed ++ [(i, event)] }.yieldTo i event
    | (none, _) =>
      if s.done then { s with iterators := Function.update s.iterators i .finished }
      else { s with
        waiting := s.waiting.enqueue i
        iterators := Function.update s.iterators i .waiting }
  | _ => s

/-- An iterator goes on behind its promise. -/
def resume (i : I) (s : EventStream I T R) : EventStream I T R :=
  match s.iterators i with
  | .woken (some event) => s.yieldTo i event
  | .woken none => { s with iterators := Function.update s.iterators i .finished }
  | _ => s

section Classes

variable (isComplete : T → Bool) (extractResult : T → R)

def push (event : T) (s : EventStream I T R) : EventStream I T R :=
  if s.done then s
  else
    let s := if isComplete event then
        { s with done := true, result := s.result.or (some (extractResult event)), settled := true }
      else s
    s.deliver event

def step (s : EventStream I T R) : Action I T R → EventStream I T R
  | .push event => s.push isComplete extractResult event
  | .finish result => s.finish result
  | .ask i => s.ask i
  | .resume i => s.resume i

def run (actions : List (Action I T R)) : EventStream I T R :=
  actions.foldl (step isComplete extractResult) start

/-! ### What is expected -/

/-- The events that are pushed before the stream is done, the terminal one included. -/
def accepted : List (Action I T R) → List T
  | [] => []
  | .push event :: rest => if isComplete event then [event] else event :: accepted rest
  | .finish _ :: _ => []
  | .ask _ :: rest => accepted rest
  | .resume _ :: rest => accepted rest

/-- Whether an action ends a stream. -/
def ends : Action I T R → Bool
  | .push event => isComplete event
  | .finish _ => true
  | _ => false

/-- The result of an `end` call. -/
def endResult : Action I T R → Option R
  | .finish result => result
  | _ => none

/-- The terminal event's result, else that of the first `end` call that has one. -/
def expected (actions : List (Action I T R)) : Option R :=
  (((accepted isComplete actions).find? isComplete).map extractResult).or (actions.findSome? endResult)

omit [DecidableEq I] in
theorem accepted_concat (actions : List (Action I T R)) (action : Action I T R) :
    accepted isComplete (actions ++ [action]) = accepted isComplete actions ++
      if actions.any (ends isComplete) then [] else accepted isComplete [action] := by
  induction actions with
  | nil => rfl
  | cons first rest ih =>
    cases first with
    | push event =>
      by_cases complete : isComplete event = true
      · simp [accepted, ends, complete]
      · simp [accepted, ends, complete, ih]
    | finish result => simp [accepted, ends]
    | ask i | resume i => simpa [accepted, ends] using ih

omit [DecidableEq I] in
/-- While nothing has ended a stream, no result is expected. -/
theorem expected_live {actions : List (Action I T R)} (live : actions.any (ends isComplete) = false) :
    (accepted isComplete actions).find? isComplete = none ∧ actions.findSome? endResult = none := by
  induction actions with
  | nil => exact ⟨rfl, rfl⟩
  | cons first rest ih =>
    rw [any_cons, Bool.or_eq_false_iff] at live
    obtain ⟨terminal, result⟩ := ih live.2
    cases first with
    | push event =>
      have partial_ : isComplete event = false := live.1
      refine ⟨?_, result⟩
      rw [accepted, if_neg (by simp [partial_]), List.find?_cons_of_neg (by simp [partial_])]
      exact terminal
    | finish result => cases live.1
    | ask i => exact ⟨terminal, result⟩
    | resume i => exact ⟨terminal, result⟩

end Classes

/-! ### The invariant -/

/-- The event an iterator has in hand. -/
def held : Iterating T → List T
  | .woken (some event) => [event]
  | _ => []

/-- What an iterator was handed. -/
def share (s : EventStream I T R) (i : I) : List T :=
  (s.handed.filter fun e => decide (e.1 = i)).map Prod.snd

/-- **What holds of a stream that took some events**: they are handed out in order or queued, every
iterator yielded what it was handed or has it in hand, and only an empty queue is waited for. -/
structure Core (events : List T) (s : EventStream I T R) : Prop where
  handed : s.handed.map Prod.snd ++ s.queue.contents = events
  shares : ∀ i, s.yielded i ++ held (s.iterators i) = s.share i
  waiting : ∀ i, i ∈ s.waiting.contents ↔ s.iterators i = .waiting
  once : s.waiting.contents.Nodup
  empty : s.waiting.contents ≠ [] → s.queue.contents = []

section Steps

variable {events : List T} {s : EventStream I T R}

/-- The first waiting consumer, and those behind it. -/
theorem Core.first (core : Core events s) {waiter : I} {waiting : FifoQueue I}
    (is : s.waiting.dequeue = (some waiter, waiting)) :
    s.waiting.contents = waiter :: waiting.contents ∧ s.iterators waiter = .waiting ∧
      waiter ∉ waiting.contents ∧ waiting.contents.Nodup ∧ s.queue.contents = [] := by
  obtain ⟨first, rest⟩ := s.waiting.dequeue_spec
  rw [is] at first rest
  have shape : s.waiting.contents = waiter :: waiting.contents := by
    rw [rest]
    exact (List.cons_head?_tail first.symm).symm
  have once := core.once
  rw [shape] at once
  have member : waiter ∈ s.waiting.contents := by
    rw [shape]
    exact mem_cons_self
  exact ⟨shape, (core.waiting waiter).mp member, (List.nodup_cons.mp once).1,
    (List.nodup_cons.mp once).2, core.empty (ne_nil_of_mem member)⟩

theorem contents_of_dequeue_none {α : Type} {q rest : FifoQueue α} (is : q.dequeue = (none, rest)) :
    q.contents = [] ∧ rest.contents = [] := by
  obtain ⟨first, tail⟩ := q.dequeue_spec
  rw [is] at first tail
  have empty := List.head?_eq_none_iff.mp first.symm
  rw [empty] at tail
  exact ⟨empty, tail⟩

section Core

variable (core : Core events s)
include core

/-- Who waits once the first waiting consumer is woken. -/
theorem Core.waiting_woken {waiter : I} {waiting : FifoQueue I}
    (is : s.waiting.dequeue = (some waiter, waiting)) (event : Option T) (i : I) :
    i ∈ waiting.contents ↔ Function.update s.iterators waiter (.woken event) i = .waiting := by
  obtain ⟨shape, -, absent, -, -⟩ := core.first is
  by_cases same : i = waiter
  · subst same
    simp [absent]
  · rw [update_of_ne same, ← core.waiting i, shape, mem_cons, or_iff_right same]

/-- Ending a stream leaves its events as they are. -/
theorem Core.ended (result : Option R) :
    Core events { s with done := true, result := result, settled := true } :=
  ⟨core.handed, core.shares, core.waiting, core.once, core.empty⟩

theorem Core.deliver (event : T) :
    Core (events ++ [event]) (s.deliver event) := by
  unfold EventStream.deliver
  rcases is : s.waiting.dequeue with ⟨_ | waiter, waiting⟩
  · obtain ⟨none, still⟩ := contents_of_dequeue_none is
    refine ⟨?_, core.shares, ?_, ?_, ?_⟩
    · rw [FifoQueue.contents_enqueue, ← append_assoc, core.handed]
    · intro i
      rw [← core.waiting i]
      show i ∈ waiting.contents ↔ _
      rw [still, none]
    · show waiting.contents.Nodup
      rw [still]
      exact nodup_nil
    · exact fun some_ => (some_ still).elim
  · obtain ⟨-, waits, -, once, none⟩ := core.first is
    refine ⟨?_, ?_, core.waiting_woken is _, once, fun _ => none⟩
    · show (s.handed ++ [(waiter, event)]).map Prod.snd ++ s.queue.contents = _
      rw [none, append_nil, map_append, ← core.handed, none, append_nil]
      rfl
    · intro i
      show s.yielded i ++ held (Function.update s.iterators waiter (.woken (some event)) i) =
        ((s.handed ++ [(waiter, event)]).filter fun e => decide (e.1 = i)).map Prod.snd
      rw [filter_append, map_append]
      have before : s.yielded i ++ held (s.iterators i) = _ := core.shares i
      by_cases same : i = waiter
      · subst same
        rw [waits] at before
        rw [update_self, ← EventStream.share, ← before]
        simp [held]
      · rw [update_of_ne same, ← EventStream.share, before]
        simp [Ne.symm same]

theorem Core.notify {n : Nat} (number : n = s.waiting.contents.length) :
    Core events (notify n s) ∧ (notify n s).waiting.contents = [] := by
  induction n generalizing s with
  | zero => exact ⟨core, eq_nil_of_length_eq_zero number.symm⟩
  | succ n ih =>
    unfold EventStream.notify
    rcases is : s.waiting.dequeue with ⟨_ | waiter, waiting⟩
    · rw [(contents_of_dequeue_none is).1] at number
      cases number
    · obtain ⟨shape, waits, -, once, none⟩ := core.first is
      refine ih ⟨core.handed, fun i => ?_, core.waiting_woken is _, once, fun _ => none⟩ ?_
      · show s.yielded i ++ held (Function.update s.iterators waiter (.woken Option.none) i) = _
        have before := core.shares i
        by_cases same : i = waiter
        · subst same
          rw [waits] at before
          rw [update_self]
          exact before
        · rw [update_of_ne same]
          exact before
      · rw [shape] at number
        exact Nat.succ.inj number

/-- An iterator that had nothing in hand and did not wait, yields what it is handed. -/
theorem Core.yieldTo {i : I} (idle : s.iterators i = .idle) {event : T} {queue : FifoQueue T}
    (is : s.queue.dequeue = (some event, queue)) :
    Core events ({ s with queue := queue, handed := s.handed ++ [(i, event)] }.yieldTo i event) := by
  obtain ⟨first, rest⟩ := s.queue.dequeue_spec
  rw [is] at first rest
  have shape : s.queue.contents = event :: queue.contents := by
    rw [rest]
    exact (List.cons_head?_tail first.symm).symm
  have nobody : s.waiting.contents = [] := by
    by_contra some_
    rw [core.empty some_] at shape
    cases shape
  refine ⟨?_, fun j => ?_, fun j => ?_, core.once, fun some_ => (some_ nobody).elim⟩
  · show (s.handed ++ [(i, event)]).map Prod.snd ++ queue.contents = _
    rw [← core.handed, shape, map_append, append_assoc]
    rfl
  · show Function.update s.yielded i (s.yielded i ++ [event]) j ++
      held (Function.update s.iterators i .idle j) =
        ((s.handed ++ [(i, event)]).filter fun e => decide (e.1 = j)).map Prod.snd
    rw [filter_append, map_append, ← EventStream.share]
    have before := core.shares j
    by_cases same : j = i
    · subst same
      rw [idle] at before
      rw [update_self, update_self, ← before]
      simp [held]
    · rw [update_of_ne same, update_of_ne same, before]
      simp [Ne.symm same]
  · show j ∈ s.waiting.contents ↔ Function.update s.iterators i .idle j = .waiting
    by_cases same : j = i
    · subst same
      rw [nobody, update_self]
      simp
    · rw [update_of_ne same]
      exact core.waiting j

/-- An iterator moves on with what it has in hand. -/
theorem Core.moveOn {i : I} {status : Iterating T} (same : held status = held (s.iterators i))
    (still : status ≠ .waiting) (awake : s.iterators i ≠ .waiting) :
    Core events { s with iterators := Function.update s.iterators i status } := by
  refine ⟨core.handed, fun j => ?_, fun j => ?_, core.once, core.empty⟩
  · show s.yielded j ++ held (Function.update s.iterators i status j) = s.share j
    by_cases here : j = i
    · subst here
      rw [update_self, same]
      exact core.shares j
    · rw [update_of_ne here]
      exact core.shares j
  · show j ∈ s.waiting.contents ↔ Function.update s.iterators i status j = .waiting
    by_cases here : j = i
    · subst here
      rw [update_self, core.waiting j]
      exact ⟨fun waits => (awake waits).elim, fun waits => (still waits).elim⟩
    · rw [update_of_ne here]
      exact core.waiting j

theorem Core.ask (i : I) : Core events (s.ask i) := by
  unfold EventStream.ask
  cases at_ : s.iterators i with
  | idle =>
    dsimp only
    have awake : s.iterators i ≠ .waiting := by
      rw [at_]
      exact fun same => by cases same
    rcases is : s.queue.dequeue with ⟨_ | event, queue⟩
    · dsimp only
      split
      · exact core.moveOn (by rw [at_]; rfl) (fun same => by cases same) awake
      · have absent : i ∉ s.waiting.contents := fun member => awake ((core.waiting i).mp member)
        refine ⟨core.handed, fun j => ?_, fun j => ?_, ?_, fun _ => (contents_of_dequeue_none is).1⟩
        · show s.yielded j ++ held (Function.update s.iterators i .waiting j) = s.share j
          by_cases here : j = i
          · subst here
            have before := core.shares j
            rw [at_] at before
            rw [update_self]
            exact before
          · rw [update_of_ne here]
            exact core.shares j
        · show j ∈ (s.waiting.enqueue i).contents ↔
            Function.update s.iterators i .waiting j = .waiting
          rw [FifoQueue.contents_enqueue, mem_append, mem_singleton]
          by_cases here : j = i
          · subst here
            simp
          · rw [update_of_ne here, or_iff_left here]
            exact core.waiting j
        · show (s.waiting.enqueue i).contents.Nodup
          rw [FifoQueue.contents_enqueue]
          exact List.nodup_append.mpr ⟨core.once, nodup_singleton i, fun j old k new same =>
            absent (List.mem_singleton.mp new ▸ same ▸ old)⟩
    · exact core.yieldTo at_ is
  | _ => exact core

theorem Core.resume (i : I) : Core events (s.resume i) := by
  unfold EventStream.resume
  cases at_ : s.iterators i with
  | woken event =>
    have awake : s.iterators i ≠ .waiting := by
      rw [at_]
      exact fun same => by cases same
    cases event with
    | none => exact core.moveOn (by rw [at_]; rfl) (fun same => by cases same) awake
    | some event =>
      refine ⟨core.handed, fun j => ?_, fun j => ?_, core.once, core.empty⟩
      · show Function.update s.yielded i (s.yielded i ++ [event]) j ++
          held (Function.update s.iterators i .idle j) = s.share j
        have before := core.shares j
        by_cases here : j = i
        · subst here
          rw [at_] at before
          rw [update_self, update_self, ← before]
          exact append_nil _
        · rw [update_of_ne here, update_of_ne here]
          exact before
      · show j ∈ s.waiting.contents ↔ Function.update s.iterators i .idle j = .waiting
        by_cases here : j = i
        · subst here
          rw [update_self, core.waiting j]
          exact ⟨fun waits => (awake waits).elim, fun same => by cases same⟩
        · rw [update_of_ne here]
          exact core.waiting j
  | _ => exact core

end Core

/-! ### The ends of a stream -/

/-- Whether a stream is done, settled, and with which result. -/
def ending (s : EventStream I T R) : Bool × Bool × Option R := (s.done, s.settled, s.result)

theorem ending_deliver (event : T) : (s.deliver event).ending = s.ending := by
  unfold EventStream.deliver
  split <;> rfl

theorem ending_notify (n : Nat) : (notify n s).ending = s.ending := by
  induction n generalizing s with
  | zero => rfl
  | succ n ih =>
    unfold EventStream.notify
    split
    · exact ih
    · rfl

theorem ending_ask (i : I) : (s.ask i).ending = s.ending := by
  unfold EventStream.ask
  split
  · split
    · rfl
    · split <;> rfl
  · rfl

theorem ending_resume (i : I) : (s.resume i).ending = s.ending := by
  unfold EventStream.resume
  split <;> rfl

end Steps

/-! ### Runs -/

section Runs

variable (isComplete : T → Bool) (extractResult : T → R)

/-- **What holds of a stream after some actions.** -/
structure Inv (actions : List (Action I T R)) (s : EventStream I T R) : Prop where
  core : Core (accepted isComplete actions) s
  ending : s.ending = (actions.any (ends isComplete), actions.any (ends isComplete),
    expected isComplete extractResult actions)

variable {isComplete extractResult} {actions : List (Action I T R)} {s : EventStream I T R}

/-- An action that is no push and no end changes neither the events nor the ending. -/
theorem Inv.quiet (inv : Inv isComplete extractResult actions s) {action : Action I T R}
    {next : EventStream I T R} (none : accepted isComplete [action] = [])
    (open_ : ends isComplete action = false) (noResult : endResult action = Option.none)
    (core : Core (accepted isComplete actions) next) (same : next.ending = s.ending) :
    Inv isComplete extractResult (actions ++ [action]) next := by
  have events : accepted isComplete (actions ++ [action]) = accepted isComplete actions := by
    rw [accepted_concat, none, ite_self, append_nil]
  refine ⟨events ▸ core, same.trans (inv.ending.trans ?_)⟩
  rw [any_append, expected, expected, events, List.findSome?_append]
  simp [open_, noResult]

theorem Inv.push (inv : Inv isComplete extractResult actions s) (event : T) :
    Inv isComplete extractResult (actions ++ [.push event])
      (s.push isComplete extractResult event) := by
  have parts := inv.ending
  simp only [EventStream.ending, Prod.mk.injEq] at parts
  obtain ⟨done, settled, result⟩ := parts
  unfold EventStream.push
  cases ended : actions.any (ends isComplete) with
  | true =>
    rw [if_pos (done.trans ended)]
    have events : accepted isComplete (actions ++ [.push event]) = accepted isComplete actions := by
      rw [accepted_concat, if_pos ended, append_nil]
    refine ⟨events ▸ inv.core, ?_⟩
    rw [inv.ending, expected, expected, events, any_append, ended, List.findSome?_append]
    simp [endResult]
  | false =>
    rw [if_neg (by rw [done, ended]; exact Bool.false_ne_true)]
    obtain ⟨terminal, noEnd⟩ := expected_live isComplete ended
    have events : accepted isComplete (actions ++ [.push event]) =
        accepted isComplete actions ++ [event] := by
      rw [accepted_concat, ended]
      cases complete : isComplete event <;> simp [accepted, complete]
    have open_ : s.result = none := by
      rw [result, expected, terminal, noEnd]
      rfl
    have shape (complete : Bool) (is : isComplete event = complete) :
        ((actions ++ [Action.push (I := I) (R := R) event]).any (ends isComplete),
          (actions ++ [Action.push (I := I) (R := R) event]).any (ends isComplete),
          expected isComplete extractResult (actions ++ [.push event])) =
        (complete, complete, if complete then some (extractResult event) else none) := by
      rw [expected, events, any_append, ended, List.find?_append, terminal,
        List.findSome?_append, noEnd]
      cases complete <;> simp [ends, is, endResult]
    cases complete : isComplete event with
    | true =>
      rw [if_pos rfl]
      refine ⟨?_, ?_⟩
      · rw [events]
        exact (inv.core.ended _).deliver event
      · rw [shape true complete, if_pos rfl, ending_deliver, open_]
        rfl
    | false =>
      rw [if_neg Bool.false_ne_true]
      refine ⟨?_, ?_⟩
      · rw [events]
        exact inv.core.deliver event
      · rw [shape false complete, if_neg Bool.false_ne_true, ending_deliver, EventStream.ending, done,
          settled, ended, open_]

theorem Inv.finish (inv : Inv isComplete extractResult actions s) (result : Option R) :
    Inv isComplete extractResult (actions ++ [.finish result]) (s.finish result) := by
  have parts := inv.ending
  simp only [EventStream.ending, Prod.mk.injEq] at parts
  obtain ⟨done, settled, was⟩ := parts
  have events : accepted isComplete (actions ++ [.finish result]) = accepted isComplete actions := by
    rw [accepted_concat]
    simp [accepted]
  have ending : ((actions ++ [Action.finish (I := I) (T := T) result]).any (ends isComplete),
      (actions ++ [Action.finish (I := I) (T := T) result]).any (ends isComplete),
      expected isComplete extractResult (actions ++ [.finish result])) =
      (true, true, s.result.or result) := by
    rw [was, expected, expected, events, any_append, List.findSome?_append, Option.or_assoc]
    cases result <;> simp [ends, endResult]
  have core := inv.core.ended (s.result.or result)
  refine ⟨?_, ?_⟩
  · rw [events, EventStream.finish]
    dsimp only
    split
    · exact core
    · exact (core.notify (FifoQueue.length_eq _)).1
  · rw [ending, EventStream.finish]
    dsimp only
    split
    · rfl
    · exact ending_notify _

theorem run_concat (actions : List (Action I T R)) (action : Action I T R) :
    run isComplete extractResult (actions ++ [action]) =
      (run isComplete extractResult actions).step isComplete extractResult action :=
  foldl_append

variable (isComplete extractResult) in
/-- **Every event that is accepted is handed to one iterator, in order, or queued**, and the stream is
settled when it is done, with the result that is expected. -/
theorem run_inv (actions : List (Action I T R)) :
    Inv isComplete extractResult actions (run isComplete extractResult actions) := by
  induction actions using List.reverseRecOn with
  | nil =>
    refine ⟨⟨rfl, fun i => rfl, fun i => ?_, nodup_nil, fun some_ => (some_ rfl).elim⟩, rfl⟩
    have silent : (run isComplete extractResult []).iterators i = (Iterating.idle : Iterating T) := rfl
    rw [silent]
    exact iff_of_false not_mem_nil fun same => by cases same
  | append_singleton actions action ih =>
    rw [run_concat]
    cases action with
    | push event => exact ih.push event
    | finish result => exact ih.finish result
    | ask i => exact ih.quiet rfl rfl rfl (ih.core.ask i) (ending_ask i)
    | resume i => exact ih.quiet rfl rfl rfl (ih.core.resume i) (ending_resume i)

/-! ### Who keeps asking -/

/-- An iterator asks a number of times. -/
def asks (i : I) : Nat → EventStream I T R → EventStream I T R
  | 0, s => s
  | n + 1, s => asks i n (s.ask i)

/-- **An iterator that keeps asking gets all that is queued**, in order. -/
theorem drain_spec {events : List T} (core : Core events s) {i : I} (idle : s.iterators i = .idle)
    {n : Nat} (number : n = s.queue.contents.length) :
    (s.asks i n).queue.contents = [] ∧ (s.asks i n).yielded i = s.yielded i ++ s.queue.contents := by
  induction n generalizing s with
  | zero =>
    have empty := eq_nil_of_length_eq_zero number.symm
    exact ⟨empty, by rw [empty, append_nil]; rfl⟩
  | succ n ih =>
    rcases is : s.queue.dequeue with ⟨_ | event, queue⟩
    · rw [(contents_of_dequeue_none is).1] at number
      cases number
    · obtain ⟨first, rest⟩ := s.queue.dequeue_spec
      rw [is] at first rest
      have shape : s.queue.contents = event :: queue.contents := by
        rw [rest]
        exact (List.cons_head?_tail first.symm).symm
      have asked : s.ask i =
          { s with queue := queue, handed := s.handed ++ [(i, event)] }.yieldTo i event := by
        unfold EventStream.ask
        rw [idle]
        dsimp only
        rw [is]
      have next : Core events (s.ask i) := core.ask i
      rw [asked] at next
      rw [shape] at number
      obtain ⟨empty, yields⟩ := ih next (update_self _ _ _) (Nat.succ.inj number)
      show ((s.ask i).asks i n).queue.contents = [] ∧ ((s.ask i).asks i n).yielded i = _
      rw [asked]
      refine ⟨empty, yields.trans ?_⟩
      show Function.update s.yielded i (s.yielded i ++ [event]) i ++ queue.contents = _
      rw [update_self, shape, append_assoc]
      rfl

/-! ### Who is left waiting -/

variable (isComplete extractResult) in
/-- Once the stream is done and its queue is empty, no iterator waits. -/
def NoneLeft (actions : List (Action I T R)) : Prop :=
  ∀ before, before <+: actions → (run isComplete extractResult before).done = true →
    (run isComplete extractResult before).queue.contents = [] →
      ∀ i, (run isComplete extractResult before).iterators i ≠ .waiting

variable (isComplete extractResult) in
/-- A terminal event that is accepted finds one waiting iterator at most. -/
def OneWaits (actions : List (Action I T R)) : Prop :=
  ∀ before event, before ++ [.push event] <+: actions → isComplete event = true →
    (run isComplete extractResult before).done = false →
      (run isComplete extractResult before).waiting.contents.length ≤ 1

/-- Whom an event leaves waiting. -/
theorem waiting_deliver (event : T) : (s.deliver event).waiting.contents = s.waiting.contents.tail := by
  obtain ⟨-, rest⟩ := s.waiting.dequeue_spec
  unfold EventStream.deliver
  split <;> rename_i is <;> rw [is] at rest <;> exact rest

/-- Where a stream that is done is waited for by nobody, it stays so. -/
theorem waiting_ask (i : I) (done : s.done = true) : (s.ask i).waiting = s.waiting := by
  unfold EventStream.ask
  split
  · split
    · rfl
    · rw [if_pos done]
  · rfl

theorem waiting_resume (i : I) : (s.resume i).waiting = s.waiting := by
  unfold EventStream.resume
  split <;> rfl

omit [DecidableEq I] in
theorem done_eq {t : EventStream I T R} (same : s.ending = t.ending) : s.done = t.done :=
  congrArg Prod.fst same

/-- **No iterator is left waiting exactly when a terminal event finds one waiting iterator at most.** -/
theorem noneLeft_iff (actions : List (Action I T R)) :
    NoneLeft isComplete extractResult actions ↔ OneWaits isComplete extractResult actions := by
  constructor
  · intro none before event first complete live
    by_contra many
    have inv := run_inv isComplete extractResult before
    have next := run_inv isComplete extractResult (before ++ [.push event])
    have pushed : (run isComplete extractResult (before ++ [.push event])).waiting.contents =
        (run isComplete extractResult before).waiting.contents.tail := by
      rw [run_concat]
      show (EventStream.push _ _ _ _).waiting.contents = _
      rw [EventStream.push, if_neg (by rw [live]; exact Bool.false_ne_true), complete, if_pos rfl]
      exact waiting_deliver event
    have some_ : (run isComplete extractResult (before ++ [.push event])).waiting.contents ≠ [] := by
      rw [pushed, ← length_pos_iff, length_tail]
      omega
    have done : (run isComplete extractResult (before ++ [.push event])).done = true := by
      refine (congrArg Prod.fst next.ending).trans ?_
      rw [any_append, any_cons, ends, complete, Bool.true_or, Bool.or_true]
    obtain ⟨i, member⟩ := exists_mem_of_ne_nil _ some_
    exact none _ first done (next.core.empty some_) i ((next.core.waiting i).mp member)
  · intro one
    have nobody : ∀ before, before <+: actions →
        (run isComplete extractResult before).done = true →
          (run isComplete extractResult before).waiting.contents = [] := by
      intro before
      induction before using List.reverseRecOn with
      | nil => exact fun _ done => by cases done
      | append_singleton before action ih =>
        intro first
        have earlier := ih ((prefix_append _ _).trans first)
        have inv := run_inv isComplete extractResult before
        rw [run_concat]
        cases action with
        | push event =>
          show (EventStream.push _ _ _ _).done = true → (EventStream.push _ _ _ _).waiting.contents = []
          cases live : (run isComplete extractResult before).done with
          | true =>
            rw [EventStream.push, if_pos live]
            exact earlier
          | false =>
            rw [EventStream.push, if_neg (by rw [live]; exact Bool.false_ne_true)]
            cases complete : isComplete event with
            | true =>
              intro _
              have few := one before event first complete live
              refine (waiting_deliver event).trans (eq_nil_of_length_eq_zero ?_)
              show (run isComplete extractResult before).waiting.contents.tail.length = 0
              rw [length_tail]
              omega
            | false =>
              intro done
              have same : (EventStream.deliver (run isComplete extractResult before) event).done =
                  (run isComplete extractResult before).done := done_eq (ending_deliver event)
              rw [same.symm.trans done] at live
              cases live
        | finish result =>
          intro _
          show (EventStream.finish _ _).waiting.contents = []
          unfold EventStream.finish
          dsimp only
          split
          · rename_i done
            exact earlier done
          · exact ((inv.core.ended _).notify (FifoQueue.length_eq _)).2
        | ask i =>
          intro done
          have was := (done_eq (ending_ask i)).symm.trans done
          exact (congrArg FifoQueue.contents (waiting_ask i was)).trans (earlier was)
        | resume i =>
          intro done
          have was := (done_eq (ending_resume i)).symm.trans done
          exact (congrArg FifoQueue.contents (waiting_resume i)).trans (earlier was)
    intro before first done _ i waits
    have member := ((run_inv isComplete extractResult before).core.waiting i).mpr waits
    rw [nobody before first done] at member
    cases member

variable (isComplete extractResult) in
/-- **Event streams deliver everything and end.** For every interleaving: the events that are accepted
are handed out in order, each to one iterator, or queued, and every iterator yields what it was handed;
an iterator that keeps asking gets all that is queued; the result is the expected one, and the stream is
settled when it is done. No iterator is left waiting exactly when a terminal event finds one waiting
iterator at most. -/
theorem delivers (actions : List (Action I T R)) :
    (run isComplete extractResult actions).handed.map Prod.snd ++
        (run isComplete extractResult actions).queue.contents = accepted isComplete actions ∧
    (∀ i, (run isComplete extractResult actions).yielded i ++
        held ((run isComplete extractResult actions).iterators i) =
      (run isComplete extractResult actions).share i) ∧
    (∀ i, (run isComplete extractResult actions).iterators i = .idle →
      ((run isComplete extractResult actions).asks i
        (run isComplete extractResult actions).queue.length).yielded i =
          (run isComplete extractResult actions).yielded i ++
            (run isComplete extractResult actions).queue.contents) ∧
    (∀ i event, (run isComplete extractResult actions).iterators i = .woken (some event) →
      ((run isComplete extractResult actions).resume i).yielded i =
        (run isComplete extractResult actions).yielded i ++ [event]) ∧
    (run isComplete extractResult actions).result = expected isComplete extractResult actions ∧
    (run isComplete extractResult actions).settled = actions.any (ends isComplete) ∧
    (NoneLeft isComplete extractResult actions ↔ OneWaits isComplete extractResult actions) := by
  have inv := run_inv isComplete extractResult actions
  refine ⟨inv.core.handed, inv.core.shares, fun i idle => ?_, fun i event woken => ?_,
    congrArg (fun e => e.2.2) inv.ending, congrArg (fun e => e.2.1) inv.ending, noneLeft_iff actions⟩
  · exact (drain_spec inv.core idle (FifoQueue.length_eq _)).2
  · unfold EventStream.resume
    rw [woken]
    exact update_self _ _ _

end Runs

/-- **Two iterators wait, and the terminal event strands one of them**: neither it nor a later `end`
tells the second one that the stream is done. -/
theorem stranded :
    (run (I := Nat) (T := Unit) (R := Unit) (fun _ => true) id
      [.ask 0, .ask 1, .push (), .finish none]).done = true ∧
    (run (I := Nat) (T := Unit) (R := Unit) (fun _ => true) id
      [.ask 0, .ask 1, .push (), .finish none]).queue.contents = [] ∧
    (run (I := Nat) (T := Unit) (R := Unit) (fun _ => true) id
      [.ask 0, .ask 1, .push (), .finish none]).iterators 1 = .waiting :=
  ⟨rfl, rfl, rfl⟩

end EventStream

end TianGong.Ai
