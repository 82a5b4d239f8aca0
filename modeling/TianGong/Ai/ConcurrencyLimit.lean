/-
**The ceiling of a provider: `ai/utils/concurrency-limit.ts` and its use in `ai/models.ts`.**

A request is set up, takes a slot of its provider (`holdSlot`), is opened in a later turn, and gives
the slot back in the turn after the provider's stream has settled. In between anything else happens.

* `ConcurrencyLimiter.acquire_spec`, `active_release`: what the two do to the counts.
* `ceiling_held`: the ceiling holds in every run of requests that go through `holdSlot`.
* `ceiling_passed`: `classify` goes to the provider without a slot.

The stream that a caller is given is not the provider's and has no part in this. The span around the
admission changes nothing. No function reads the records `acquires` and `releases`.
-/

import Mathlib.Data.Rat.Cast.Order
import TianGong.Ai.EventStream
import TianGong.Lib.Assoc

namespace TianGong.Ai

open List

/-! ### The limiter -/

/-- Why an admission is refused. -/
inductive Refusal (P : Type) where
  | limit (providerId : P) (limit : ℚ)
  | aborted

structure ConcurrencyLimiter (P : Type) where
  limit : ℚ
  inFlight : List (P × Nat)

variable {I T R P : Type} [DecidableEq P]

namespace ConcurrencyLimiter

/-- `inFlight` of a bucket. -/
def active (l : ConcurrencyLimiter P) (bucket : P) : Nat := (Assoc.get bucket l.inFlight).getD 0

def release (l : ConcurrencyLimiter P) (bucket : P) : ConcurrencyLimiter P :=
  if l.limit ≤ 0 then l
  else
    match Assoc.get bucket l.inFlight with
    | none => l
    | some active =>
      { l with
        inFlight :=
          if 1 < active then Assoc.set bucket (active - 1) l.inFlight
          else Assoc.erase bucket l.inFlight }

def acquire (l : ConcurrencyLimiter P) (bucket : P) (aborted : Bool) :
    Option (Refusal P) × ConcurrencyLimiter P :=
  if l.limit ≤ 0 then (none, l)
  else if l.limit ≤ l.active bucket then (some (.limit bucket l.limit), l)
  else
    let taken := { l with inFlight := Assoc.set bucket (l.active bucket + 1) l.inFlight }
    if aborted then (some .aborted, taken.release bucket) else (none, taken)

theorem limit_release (l : ConcurrencyLimiter P) (bucket : P) : (l.release bucket).limit = l.limit := by
  unfold release
  split
  · rfl
  · split <;> rfl

/-- **A slot is given back.** -/
theorem active_release {l : ConcurrencyLimiter P} (positive : 0 < l.limit) (bucket p : P) :
    (l.release bucket).active p = l.active p - if bucket = p then 1 else 0 := by
  unfold release
  rw [if_neg (not_le.mpr positive)]
  unfold active
  split
  · rename_i absent
    split_ifs with same
    · rw [← same, absent]
      rfl
    · rfl
  · rename_i active found
    by_cases same : bucket = p
    · subst same
      rw [if_pos rfl, found]
      split_ifs with more
      · rw [Assoc.get_set_self]
        rfl
      · rw [Assoc.get_erase_self]
        exact (Nat.sub_eq_zero_of_le (Nat.le_of_not_lt more)).symm
    · rw [if_neg same]
      split_ifs
      · rw [Assoc.get_set_ne same]
        rfl
      · rw [Assoc.get_erase_ne same]
        rfl

/-- **A slot is taken where there is room**, and an aborted caller does not keep it. -/
theorem acquire_spec {l : ConcurrencyLimiter P} (positive : 0 < l.limit) (bucket : P) (aborted : Bool) :
    (l.acquire bucket aborted).2.limit = l.limit ∧
      (((l.acquire bucket aborted).1 = none ∧ (l.active bucket : ℚ) < l.limit ∧
          ∀ p, (l.acquire bucket aborted).2.active p = l.active p + if bucket = p then 1 else 0) ∨
        ∃ refusal, (l.acquire bucket aborted).1 = some refusal ∧
          ∀ p, (l.acquire bucket aborted).2.active p = l.active p) := by
  have taken : ∀ p, ({ l with inFlight := Assoc.set bucket (l.active bucket + 1) l.inFlight } :
      ConcurrencyLimiter P).active p = l.active p + if bucket = p then 1 else 0 := by
    intro p
    by_cases same : bucket = p
    · subst same
      rw [if_pos rfl, active, Assoc.get_set_self]
      rfl
    · rw [if_neg same, active, Assoc.get_set_ne same]
      rfl
  unfold acquire
  rw [if_neg (not_le.mpr positive)]
  split_ifs with full stopped
  · exact ⟨rfl, .inr ⟨_, rfl, fun _ => rfl⟩⟩
  · have back := active_release
      (l := { l with inFlight := Assoc.set bucket (l.active bucket + 1) l.inFlight }) positive bucket
    refine ⟨limit_release .., .inr ⟨_, rfl, fun p => (back p).trans ?_⟩⟩
    rw [taken, Nat.add_sub_cancel]
  · exact ⟨rfl, .inl ⟨rfl, not_le.mp full, taken⟩⟩

end ConcurrencyLimiter

/-! ### Requests -/

/-- How a provider is asked. -/
inductive Kind where
  | stream
  | streamSimple
  | complete
  | completeSimple
  | streamDeferred
  | generateImages
  | classify

/-- What goes through `holdSlot`. -/
def Kind.held : Kind → Bool
  | .stream | .streamSimple | .complete | .completeSimple => true
  | .streamDeferred | .generateImages | .classify => false

/-- Where a request is: before its admission, before it is opened, at the provider with a stream or a
promise, or over. -/
inductive Phase (I T R P : Type) where
  | setup
  | admitted
  | streaming (stream : EventStream I T R)
  | pending
  | over (refusal : Option (Refusal P))

structure Request (I T R P : Type) where
  kind : Kind
  provider : P
  aborted : Bool
  phase : Phase I T R P
  acquires : Nat
  releases : Nat

namespace Request

/-- The provider works on a request. -/
def inFlight (q : Request I T R P) : Bool :=
  match q.phase with
  | .streaming stream => !stream.settled
  | .pending => true
  | _ => false

def isOver (q : Request I T R P) : Bool :=
  match q.phase with
  | .over _ => true
  | _ => false

/-- A slot is taken for a request and not given back. -/
def holds (p : P) (q : Request I T R P) : Bool :=
  q.provider = p && q.kind.held &&
    match q.phase with
    | .admitted | .streaming _ => true
    | _ => false

end Request

/-- A turn of one request. -/
inductive Turn (I T R : Type) where
  | abort
  | fail
  | ready
  | opens (throws : Bool)
  | event (action : Action I T R)
  | settle
  | react

/-- The first part of `openSlot`. -/
def Request.acquire (l : ConcurrencyLimiter P) (q : Request I T R P) :
    Request I T R P × ConcurrencyLimiter P :=
  match l.acquire q.provider q.aborted with
  | (none, l) => ({ q with phase := .admitted, acquires := q.acquires + 1 }, l)
  | (some refusal, l) => ({ q with phase := .over (some refusal) }, l)

/-- What follows `applyAuth`, in the same turn. -/
def Request.ready (l : ConcurrencyLimiter P) (q : Request I T R P) :
    Request I T R P × ConcurrencyLimiter P :=
  match q.kind with
  | .stream | .streamSimple | .complete | .completeSimple => q.acquire l
  | .streamDeferred => ({ q with phase := .streaming .start }, l)
  | .generateImages | .classify => ({ q with phase := .pending }, l)

/-! ### What is kept -/

/-- The slot of a request that goes through `holdSlot`: taken when it is admitted, given back once. -/
def Request.Kept (q : Request I T R P) : Prop :=
  q.kind.held = true ∧
    match q.phase with
    | .setup => q.acquires = 0 ∧ q.releases = 0
    | .admitted | .streaming _ => q.acquires = 1 ∧ q.releases = 0
    | .pending => False
    | .over _ => q.acquires ≤ 1 ∧ q.releases = q.acquires

/-- The count moves with what a request holds, and never past the ceiling. -/
structure Moved (l : ConcurrencyLimiter P) (q : Request I T R P)
    (next : Request I T R P × ConcurrencyLimiter P) : Prop where
  kept : next.1.Kept
  limit : next.2.limit = l.limit
  count : ∀ p, next.2.active p + (if q.holds p then 1 else 0) =
    l.active p + if next.1.holds p then 1 else 0
  within : ∀ p, next.2.active p ≤ l.active p ∨
    (l.active p : ℚ) < l.limit ∧ next.2.active p = l.active p + 1

section Turns

variable {l : ConcurrencyLimiter P} {q next : Request I T R P}

theorem Moved.idle (kept : next.Kept) (same : ∀ p, next.holds p = q.holds p) : Moved l q (next, l) :=
  ⟨kept, rfl, fun p => by rw [same p], fun _ => .inl le_rfl⟩

theorem Request.ready_of_held (held : q.kind.held = true)
    (l : ConcurrencyLimiter P) : q.ready l = q.acquire l := by
  obtain ⟨kind, provider, aborted, phase, acquires, releases⟩ := q
  cases kind with
  | stream | streamSimple | complete | completeSimple => rfl
  | streamDeferred | generateImages | classify => cases held

variable (kept : q.Kept) (positive : 0 < l.limit)
include kept positive

/-- **A request ends and gives its slot back.** -/
theorem Moved.released (counted : ∀ p, q.holds p = true → 0 < l.active p)
    (holds : q.holds q.provider = true) :
    Moved l q ({ q with phase := .over none, releases := q.releases + 1 }, l.release q.provider) := by
  have room := counted q.provider holds
  refine ⟨?_, ConcurrencyLimiter.limit_release .., fun p => ?_, fun p => .inl ?_⟩
  · obtain ⟨kind, provider, aborted, phase, acquires, releases⟩ := q
    cases phase <;> simp_all [Request.Kept, Request.holds]
  · rw [ConcurrencyLimiter.active_release positive]
    by_cases same : q.provider = p
    · subst same
      rw [if_pos rfl, if_pos holds, Nat.sub_add_cancel room]
      simp [Request.holds]
    · simp [Request.holds, same]
  · rw [ConcurrencyLimiter.active_release positive]
    exact Nat.sub_le ..

/-- **A request is admitted, or refused.** -/
theorem Moved.acquire (setup : q.phase = .setup) : Moved l q (q.acquire l) := by
  obtain ⟨kind, provider, aborted, phase, acquires, releases⟩ := q
  subst setup
  obtain ⟨held, rfl, rfl⟩ := kept
  have spec := ConcurrencyLimiter.acquire_spec positive provider aborted
  unfold Request.acquire
  dsimp only
  generalize l.acquire provider aborted = taken at spec ⊢
  obtain ⟨none | refusal, l'⟩ := taken
  · obtain ⟨limit, ⟨-, room, count⟩ | ⟨_, is, -⟩⟩ := spec
    · refine ⟨⟨held, rfl, rfl⟩, limit, fun p => ?_, fun p => ?_⟩
      · simp [Request.holds, held, count]
      · rw [count]
        split_ifs with same
        · exact .inr ⟨same ▸ room, rfl⟩
        · exact .inl le_rfl
    · cases is
  · obtain ⟨limit, ⟨is, -⟩ | ⟨-, -, count⟩⟩ := spec
    · cases is
    · exact ⟨⟨held, Nat.zero_le _, rfl⟩, limit, fun p => by simp [Request.holds, count],
        fun p => .inl (count p).le⟩

end Turns

/-! ### Runs -/

section Steps

variable [DecidableEq I] (isComplete : T → Bool) (extractResult : T → R)

/-- A turn. `fail` is a setup that throws, or a provider that is called in the same turn and throws. -/
def Request.turn (l : ConcurrencyLimiter P) (q : Request I T R P) (turn : Turn I T R) :
    Request I T R P × ConcurrencyLimiter P :=
  match turn, q.phase with
  | .abort, _ => ({ q with aborted := true }, l)
  | .fail, .setup => ({ q with phase := .over none }, l)
  | .ready, .setup => q.ready l
  | .opens true, .admitted =>
    ({ q with phase := .over none, releases := q.releases + 1 }, l.release q.provider)
  | .opens false, .admitted => ({ q with phase := .streaming .start }, l)
  | .event action, .streaming stream =>
    ({ q with phase := .streaming (stream.step isComplete extractResult action) }, l)
  | .settle, .pending => ({ q with phase := .over none }, l)
  | .react, .streaming stream =>
    if !stream.settled then (q, l)
    else if q.kind.held then
      ({ q with phase := .over none, releases := q.releases + 1 }, l.release q.provider)
    else ({ q with phase := .over none }, l)
  | _, _ => (q, l)

structure Requests (I T R P : Type) where
  limiter : ConcurrencyLimiter P
  requests : List (Request I T R P)

/-- A request is made, or goes on. -/
inductive Act (I T R P : Type) where
  | call (kind : Kind) (provider : P)
  | turn (index : Nat) (turn : Turn I T R)

/-- Requests that are made go through `holdSlot`. -/
def Act.held : Act I T R P → Bool
  | .call kind _ => kind.held
  | .turn .. => true

namespace Requests

def step (s : Requests I T R P) : Act I T R P → Requests I T R P
  | .call kind provider =>
    { s with requests := s.requests ++ [⟨kind, provider, false, .setup, 0, 0⟩] }
  | .turn index turn =>
    match s.requests[index]? with
    | none => s
    | some q =>
      let (q, l) := q.turn isComplete extractResult s.limiter turn
      ⟨l, s.requests.set index q⟩

def run (providerConcurrency : ℚ) (acts : List (Act I T R P)) : Requests I T R P :=
  acts.foldl (step isComplete extractResult) ⟨⟨providerConcurrency, []⟩, []⟩

/-- How many requests a provider works on. -/
def inFlight (s : Requests I T R P) (p : P) : Nat :=
  s.requests.countP fun q => q.provider = p && q.inFlight

end Requests

/-- **A turn of a request that goes through `holdSlot`.** -/
theorem Request.turn_spec {l : ConcurrencyLimiter P} {q : Request I T R P} (kept : q.Kept)
    (positive : 0 < l.limit) (counted : ∀ p, q.holds p = true → 0 < l.active p) (turn : Turn I T R) :
    Moved l q (q.turn isComplete extractResult l turn) := by
  obtain ⟨held, slot⟩ := kept
  unfold Request.turn
  split
  · exact .idle ⟨held, slot⟩ fun _ => rfl
  · rename_i is
    rw [is] at slot
    exact .idle ⟨held, slot.1.trans_le (Nat.zero_le 1), slot.2.trans slot.1.symm⟩
      fun p => by simp [holds, is]
  · rename_i is
    rw [ready_of_held held]
    exact .acquire ⟨held, slot⟩ positive is
  · rename_i is
    exact .released ⟨held, slot⟩ positive counted (by simp [holds, is, held])
  · rename_i is
    rw [is] at slot
    exact .idle ⟨held, slot⟩ fun p => by simp [holds, is]
  · rename_i is
    rw [is] at slot
    exact .idle ⟨held, slot⟩ fun p => by simp [holds, is]
  · rename_i is
    rw [is] at slot
    exact slot.elim
  · rename_i is
    split_ifs
    · exact .idle ⟨held, slot⟩ fun _ => rfl
    · exact .released ⟨held, slot⟩ positive counted (by simp [holds, is, held])
  · exact .idle ⟨held, slot⟩ fun _ => rfl

namespace Requests

/-- **What the ceiling promises.** A request that is at its provider has taken one slot, one that is over
has given back what it took. -/
structure Ceiling (s : Requests I T R P) : Prop where
  bounded : ∀ p, (s.inFlight p : ℚ) ≤ s.limiter.limit
  taken : ∀ q ∈ s.requests, q.acquires ≤ 1 ∧ (q.inFlight = true → q.acquires = 1)
  once : ∀ q ∈ s.requests, q.releases = if q.isOver then q.acquires else 0
  drained : (∀ q ∈ s.requests, q.isOver = true) → ∀ p, s.limiter.active p = 0

/-- **The count of a provider is the number of requests that hold a slot of it.** -/
structure Inv (limit : Nat) (s : Requests I T R P) : Prop where
  whole : s.limiter.limit = limit
  kept : ∀ q ∈ s.requests, q.Kept
  count : ∀ p, s.limiter.active p = s.requests.countP (Request.holds p)
  within : ∀ p, s.limiter.active p ≤ limit

variable {limit : Nat} {s : Requests I T R P}

theorem inv_turn (inv : Inv limit s) (positive : 0 < limit) (index : Nat) (turn : Turn I T R) :
    Inv limit (s.step isComplete extractResult (.turn index turn)) := by
  unfold step
  dsimp only
  split
  · exact inv
  · rename_i q found
    obtain ⟨bound, is⟩ := List.getElem?_eq_some_iff.mp found
    have member : q ∈ s.requests := is ▸ List.getElem_mem bound
    have moved := Request.turn_spec isComplete extractResult (l := s.limiter) (inv.kept q member)
      (by rw [inv.whole]; exact_mod_cast positive)
      (fun p holds => by rw [inv.count]; exact List.countP_pos_iff.mpr ⟨q, member, holds⟩) turn
    generalize q.turn isComplete extractResult s.limiter turn = next at moved ⊢
    refine ⟨moved.limit.trans inv.whole, fun q' member' => ?_, fun p => ?_, fun p => ?_⟩
    · rcases List.mem_or_eq_of_mem_set member' with before | rfl
      · exact inv.kept q' before
      · exact moved.kept
    · have count := moved.count p
      have whole := inv.count p
      have least : (if q.holds p then 1 else 0) ≤ s.requests.countP (Request.holds p) := by
        split_ifs with holds
        · exact List.countP_pos_iff.mpr ⟨q, member, holds⟩
        · exact Nat.zero_le _
      dsimp only
      rw [List.countP_set bound, is]
      omega
    · have before := inv.within p
      rcases moved.within p with fewer | ⟨room, one⟩
      · exact fewer.trans before
      · rw [inv.whole] at room
        have room : s.limiter.active p < limit := by exact_mod_cast room
        dsimp only
        omega

theorem inv_step (inv : Inv limit s) (positive : 0 < limit) {a : Act I T R P} (held : a.held = true) :
    Inv limit (s.step isComplete extractResult a) := by
  cases a with
  | turn index turn => exact inv_turn isComplete extractResult inv positive index turn
  | call kind provider =>
    refine ⟨inv.whole, fun q member => ?_, fun p => ?_, inv.within⟩
    · rcases List.mem_append.mp member with before | new
      · exact inv.kept q before
      · cases List.mem_singleton.mp new
        exact ⟨held, rfl, rfl⟩
    · have new : Request.holds p (⟨kind, provider, false, .setup, 0, 0⟩ : Request I T R P) = false :=
        Bool.and_false _
      simp only [step, List.countP_append, List.countP_singleton, new]
      exact inv.count p

omit [DecidableEq I] in
theorem Inv.ceiling (inv : Inv limit s) : s.Ceiling := by
  have holds : ∀ q ∈ s.requests, ∀ p, q.provider = p → q.inFlight = true → q.holds p = true := by
    intro q member p of
    obtain ⟨held, slot⟩ := inv.kept q member
    simp only [Request.inFlight, Request.holds, of, held, Bool.and_true, decide_true, Bool.true_and]
    split at slot <;> simp_all
  refine ⟨fun p => ?_, fun q member => ?_, fun q member => ?_, fun all p => ?_⟩
  · rw [inv.whole]
    refine Nat.cast_le.mpr (le_trans ?_ (inv.within p))
    rw [inv.count]
    refine List.countP_mono_left fun q member counted => ?_
    simp only [Bool.and_eq_true, decide_eq_true_eq] at counted
    exact holds q member p counted.1 counted.2
  · obtain ⟨held, slot⟩ := inv.kept q member
    unfold Request.inFlight
    split at slot <;> simp_all
  · obtain ⟨held, slot⟩ := inv.kept q member
    unfold Request.isOver
    split at slot <;> simp_all
  · rw [inv.count, List.countP_eq_zero]
    intro q member
    have settled := all q member
    unfold Request.isOver at settled
    split at settled <;> simp_all [Request.holds]

/-- **The ceiling holds** in every run of requests that go through `holdSlot`. -/
theorem ceiling_held (positive : 0 < limit) {acts : List (Act I T R P)}
    (through : ∀ a ∈ acts, a.held = true) : (run isComplete extractResult limit acts).Ceiling := by
  suffices Inv limit (run isComplete extractResult limit acts) from this.ceiling
  unfold run
  have start : Inv limit (⟨⟨limit, []⟩, []⟩ : Requests I T R P) :=
    ⟨rfl, fun _ member => (List.not_mem_nil member).elim, fun _ => rfl, fun _ => Nat.zero_le _⟩
  generalize (⟨⟨limit, []⟩, []⟩ : Requests I T R P) = s at start ⊢
  induction acts generalizing s with
  | nil => exact start
  | cons a rest ih =>
    obtain ⟨first, later⟩ := List.forall_mem_cons.mp through
    exact ih later _ (inv_step isComplete extractResult start positive first)

theorem ceiling_held_once : 0 < 1 ∧ (run (I := Unit) (fun _ : Unit => true) id ((1 : Nat) : ℚ)
    [.call .stream (), .turn 0 .ready, .turn 0 (.opens false), .call .complete (), .turn 1 .ready,
      .turn 0 (.event (.finish none)), .turn 0 .react]).Ceiling :=
  ⟨Nat.one_pos, ceiling_held _ _ Nat.one_pos (by decide)⟩

/-- **Two requests at once under a ceiling of one.** -/
theorem ceiling_passed : ¬ ∀ providerConcurrency : ℚ, 0 < providerConcurrency →
    ∀ acts : List (Act Unit Unit Unit Unit),
      (run (fun _ => true) id providerConcurrency acts).Ceiling := by
  intro all
  have most := (all 1 one_pos [.call .classify (), .turn 0 .ready, .call .classify (),
    .turn 1 .ready]).bounded ()
  exact absurd most (by decide)

end Requests

end Steps

end TianGong.Ai
