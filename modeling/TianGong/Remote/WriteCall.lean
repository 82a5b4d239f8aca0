/-
**Remote writes leave no gap.**

The call keeps the invariant of `System` as it goes on, so every run does.

* `inv_first`, `inv_chunk`, `inv_close`: what it sends, and what it does with the replies.
* `noGap_run`: in every run the file holds a beginning of the content, all of it once the call has
  succeeded, and nothing is written once it has settled.
-/

import TianGong.Lib.Returns
import TianGong.Remote.WriteRun

namespace TianGong.Remote

open List Option
open Returns

variable {inFlight : List Flight} {offset : Nat}

variable {id : Nat} {handle : RemoteHandle} {phase : WritePhase} {reply : Reply}

namespace System

variable {call : WriteCall} {s s' : System}

/-! ### Without a request -/

/-- **The call goes on**, and sends nothing. -/
theorem Inv.moves (inv : Inv call s) (unsent : s.IsUnsent → IsUnsent { s with phase })
    (first : (∀ id reply, ¬ s.Gives id reply) → s.InFirst → InFirst { s with phase })
    (kept : ∀ h, s.live = true → s.KeptLink call h → KeptLink call { s with phase } h)
    (quiet : s.live = true → s.QuietLink call → QuietLink call { s with phase })
    (flights : ∀ id, s.promise id = .pending → .sent id ∈ phase.flights)
    (told : s.Told call phase) (early : phase = .begun ∨ phase = .connecting → s.requests = [])
    (closes : ∀ sent ∈ s.requests, sent.closes = true →
      (∃ done close, phase = .closing done close) ∨ phase = .returned ∨
        ∃ done, phase = .settled done)
    (owns : ∀ handle, phase.handle = some handle → handle.session = s.session) :
    Inv call { s with phase } := by
  have alike : Alike call s { s with phase } := ⟨rfl, rfl, rfl, rfl, rfl, (fun is => is),
    fun _ _ is => is, fun _ _ is => .inl is, fun _ _ _ is _ _ => is⟩
  refine ⟨?_, inv.reached, flights, ?_, early, closes, inv.writes, inv.fresh, inv.session, owns,
    inv.current, inv.unsent, inv.positive⟩
  · obtain ⟨ids, answered, place, line⟩ := inv.place
    refine ⟨ids, answered, alike.place place unsent ?_ kept quiet,
      ⟨line.le, line.order, line.told, line.untold⟩⟩
    rintro rfl one
    exact first (line.opening one).2
  · exact told_of (fun covers => covers) (fun reached => reached) told

/-- A promise that was not answered has a request, or the session has ended. -/
theorem Inv.live_of_lost (inv : Inv call s) (inside : id < s.requests.length)
    (lost : s.promise id = .lost) : s.live = false := by
  obtain ⟨ids, answered, -, line⟩ := inv.place
  rcases Nat.lt_or_ge id answered with before | after
  · obtain ⟨reply, is⟩ := line.told id before
    rw [lost] at is
    cases is
  · have is := line.untold id after inside
    rw [lost] at is
    cases live : s.live with
    | false => rfl
    | true =>
      rw [live] at is
      cases is

/-- A reply that was received is the only one. -/
theorem Inv.gives_eq (inv : Inv call s) {reply' : Reply}
    (answered : s.promise id = .answered reply) (given : s.Gives id reply') : reply' = reply := by
  obtain ⟨ids, count, -, line⟩ := inv.place
  rcases given with again | inside
  · rw [answered] at again
    exact (Promise.answered.inj again).symm
  · have received : id < count := by
      by_contra after
      have is := line.untold id (Nat.le_of_not_lt after)
        (promise_lt (by rw [answered]; exact fun is => nomatch is))
      rw [answered] at is
      split at is <;> cases is
    have isId : id ∈ List.range' count (s.requests.length - count) := by
      rw [← line.order]
      exact mem_append_left _ (List.mem_map_of_mem inside)
    rw [List.mem_range'_1] at isId
    omega

/-- While the call has not closed its handle, no request is a `close`. -/
theorem Inv.opens (inv : Inv call s)
    (phase : (∃ id, s.phase = .first id) ∨ ∃ handle, s.phase.handle = some handle) :
    ∀ sent ∈ s.requests, sent.closes = false := by
  refine fun sent inside => Bool.eq_false_iff.mpr fun isClose => ?_
  rcases inv.closes sent inside isClose with ⟨_, _, is⟩ | is | ⟨_, is⟩ <;>
    rcases phase with ⟨_, phase⟩ | ⟨_, phase⟩ <;> rw [is] at phase <;> cases phase

/-- From a phase that writes under a handle to another. -/
theorem Inv.keeps (inv : Inv call s) (was : s.phase.handle = some handle)
    (is : phase.handle = some handle)
    (offset : s.live = true → ∀ offset, phase.offset = some offset → s.phase.offset = some offset)
    (flights : ∀ id, s.promise id = .pending → .sent id ∈ phase.flights)
    (told : s.Told call phase) : Inv call { s with phase } := by
  refine inv.moves ?_ ?_ ?_ ?_ flights told ?_ ?_ ?_
  · rintro (isPhase | isPhase | isPhase) <;> rw [isPhase] at was <;> cases was
  · rintro - (isPhase | ⟨-, isPhase⟩) <;> rw [isPhase] at was <;> cases was
  · rintro h live (⟨isPhase, -⟩ | ⟨under, offsets⟩)
    · rw [isPhase] at was
      cases was
    · exact .inr ⟨is.trans (was.symm.trans under),
        fun n isOffset => offsets n (offset live n isOffset)⟩
  · rintro - ⟨none, -⟩
    rw [was] at none
    cases none
  · rintro (isPhase | isPhase) <;> rw [isPhase] at is <;> cases is
  · intro sent inside isClose
    rw [inv.opens (.inr ⟨_, was⟩) sent inside] at isClose
    cases isClose
  · intro handle' is'
    rw [← Option.some.inj (is.symm.trans is')]
    exact inv.owns handle was

/-- Nothing was sent yet. -/
theorem inv_unsent (inv : Inv call s) (was : s.phase = .begun ∨ s.phase = .connecting)
    (is : phase = .connecting ∨ phase = .settled false) : Inv call { s with phase } := by
  have none : s.phase.handle = none := by
    rcases was with is | is <;> rw [is] <;> rfl
  have nothing := inv.early was
  refine inv.moves ?_ ?_ ?_ ?_ ?_ ?_ (fun _ => nothing) ?_ ?_
  · exact fun _ => .inr is
  · rintro - (isPhase | ⟨-, isPhase⟩) <;> rcases was with was | was <;> rw [isPhase] at was <;>
      cases was
  · rintro h - (⟨-, one, -⟩ | ⟨under, -⟩)
    · rw [nothing] at one
      cases one
    · rw [none] at under
      cases under
  · intro _ _
    rcases is with rfl | rfl
    · exact ⟨rfl, fun _ _ isFirst => nomatch isFirst⟩
    · exact ⟨rfl, fun _ _ isFirst => nomatch isFirst⟩
  · intro id pending
    have inside := @promise_lt s id (by rw [pending]; exact fun is => nomatch is)
    rw [nothing] at inside
    cases inside
  · rcases is with rfl | rfl <;> trivial
  · intro sent inside
    rw [nothing] at inside
    cases inside
  · intro handle isHandle
    rcases is with rfl | rfl <;> cases isHandle

/-- To a phase in which the call waits for no chunk: what it had sent was answered. -/
theorem Inv.ends (inv : Inv call s) (started : s.requests ≠ [])
    (is : phase = .returned ∨ (∃ done, phase = .settled done) ∨ ∃ done, phase = .closing done .refused)
    (was : s.phase ≠ .settled false)
    (first : s.phase = .first 0 → (∀ id reply, ¬ s.Gives id reply) →
      s.live = false ∧ phase = .settled false)
    (kept : s.live = true → ∀ h, ¬ s.KeptLink call h) (flights : ∀ id, s.promise id ≠ .pending)
    (told : s.Told call phase) : Inv call { s with phase } := by
  have none : phase.handle = none := by
    rcases is with rfl | ⟨_, rfl⟩ | ⟨_, rfl⟩ <;> rfl
  refine inv.moves ?_ ?_ ?_ ?_ (fun id pending => absurd pending (flights id)) told ?_ ?_ ?_
  · rintro (isPhase | isPhase | isPhase)
    · exact absurd (inv.early (.inl isPhase)) started
    · exact absurd (inv.early (.inr isPhase)) started
    · exact absurd isPhase was
  · rintro ungiven (isFirst | ⟨-, isPhase⟩)
    · exact .inr (first isFirst ungiven)
    · exact absurd isPhase was
  · exact fun h live link => absurd link (kept live h)
  · intro _ _
    refine ⟨none, fun id h isFirst => ?_⟩
    rcases is with rfl | ⟨_, rfl⟩ | ⟨_, rfl⟩ <;> cases isFirst
  · rintro (rfl | rfl)
    · rcases is with is | ⟨_, is⟩ | ⟨_, is⟩ <;> cases is
    · rcases is with is | ⟨_, is⟩ | ⟨_, is⟩ <;> cases is
  · intro sent _ _
    rcases is with is | is | ⟨done, is⟩
    · exact .inr (.inl is)
    · exact .inr (.inr is)
    · exact .inl ⟨done, .refused, is⟩
  · intro handle isHandle
    rw [none] at isHandle
    cases isHandle

/-! ### With a request -/

theorem promise_send {request : Request} {closes : Bool} (id : Nat) :
    (s.send request closes).promise id =
      if id = s.requests.length then .pending else s.promise id := by
  unfold System.promise System.send
  rcases Nat.lt_trichotomy id s.requests.length with before | is | after
  · rw [List.getElem?_append_left before, if_neg (Nat.ne_of_lt before)]
  · rw [is, List.getElem?_concat_length, if_pos rfl]
    rfl
  · rw [if_neg (Nat.ne_of_gt after), List.getElem?_eq_none (Nat.le_of_lt after),
      List.getElem?_eq_none (by
        rw [length_append, length_singleton]
        exact after)]

/-- What was not sent has no reply. -/
theorem Inv.gives_lt (inv : Inv call s) (given : s.Gives id reply) : id < s.requests.length := by
  obtain ⟨ids, answered, -, line⟩ := inv.place
  rcases given with is | inside
  · exact promise_lt (by rw [is]; exact fun is => nomatch is)
  · have isId : id ∈ List.range' answered (s.requests.length - answered) := by
      rw [← line.order]
      exact mem_append_left _ (List.mem_map_of_mem inside)
    rw [List.mem_range'_1] at isId
    omega

theorem gives_send {request : Request} {closes : Bool} :
    (s.send request closes).Gives id reply ↔ s.Gives id reply := by
  unfold Gives
  rw [promise_send]
  split
  · rename_i is
    subst is
    have none : s.promise s.requests.length = .lost := by
      by_contra isnt
      exact absurd (promise_lt isnt) (Nat.lt_irrefl _)
    rw [none]
    exact or_congr ⟨(fun is => nomatch is), (fun is => nomatch is)⟩ Iff.rfl
  · exact Iff.rfl

/-- A request is the last that is on its way. -/
theorem Line.sent {ids : List Nat} {answered : Nat} (line : s.Line ids answered)
    (live : s.live = true) {request : Request} {closes : Bool} {phase : WritePhase} :
    Line { s.send request closes with phase } (ids ++ [s.requests.length]) answered := by
  have length : (s.requests ++ [Sent.mk closes .pending]).length = s.requests.length + 1 := by
    rw [length_append, length_singleton]
  refine ⟨?_, ?_, ?_, ?_⟩
  · show answered ≤ (s.requests ++ [_]).length
    rw [length]
    exact line.le.trans (Nat.le_succ _)
  · show s.daemon.output.map Prod.fst ++ (ids ++ [s.requests.length]) =
      List.range' answered ((s.requests ++ [_]).length - answered)
    rw [length, ← append_assoc, line.order, Nat.succ_sub line.le, List.range'_1_concat,
      Nat.add_sub_cancel' line.le]
  · intro id before
    obtain ⟨reply, is⟩ := line.told id before
    refine ⟨reply, (@promise_send s request closes id).trans ?_⟩
    rw [if_neg (Nat.ne_of_lt (Nat.lt_of_lt_of_le before line.le))]
    exact is
  · intro id after inside
    refine (@promise_send s request closes id).trans ?_
    rw [show System.live { s.send request closes with phase } = true from live]
    split
    · rfl
    · rename_i isnt
      rw [show ({ s.send request closes with phase } : System).requests.length = _ from length]
        at inside
      rw [line.untold id after (by omega), live]

/-- **The call goes on** with a request. -/
theorem Inv.sends (inv : Inv call s) {request : Request} {closes : Bool} {session : Nat}
    (bound : session ≤ s.sessions)
    (place : ∃ ids answered, Where call { s.send request closes with session, phase } ids ∧
      Line { s.send request closes with session, phase } ids answered)
    (flights : ∀ id, s.promise id = .pending ∨ id = s.requests.length → .sent id ∈ phase.flights)
    (told : s.Told call phase) (early : phase ≠ .begun ∧ phase ≠ .connecting)
    (isClosed : ∀ sent ∈ s.requests ++ [⟨closes, .pending⟩], sent.closes = true →
      (∃ done close, phase = .closing done close) ∨ phase = .returned ∨
        ∃ done, phase = .settled done)
    (owns : ∀ handle, phase.handle = some handle → handle.session = session) :
    Inv call { s.send request closes with session, phase } := by
  have promise (id : Nat) : System.promise { s.send request closes with session, phase } id =
      if id = s.requests.length then .pending else s.promise id :=
    @promise_send s request closes id
  refine ⟨place, ?_, ?_, ?_, ?_, isClosed, inv.writes, inv.fresh, bound, owns, inv.current, ?_,
    inv.positive⟩
  · intro id sent reply found opens given good
    have given : s.Gives id reply := gives_send.mp given
    have before := inv.gives_lt given
    exact inv.reached id sent reply ((List.getElem?_append_left before).symm.trans found) opens given
      good
  · intro id pending
    rw [promise] at pending
    split at pending
    · rename_i is
      exact flights id (.inr is)
    · exact flights id (.inl pending)
  · show Told call _ phase
    refine @told_of call s { s.send request closes with session, phase } (fun covers k before => ?_)
      (fun reached => reached) phase told
    rcases covers k before with inFlight | refused | ⟨reply, is, good⟩
    · exact .inl inFlight
    · exact .inr (.inl refused)
    · refine .inr (.inr ⟨reply, ?_, good⟩)
      have inside := @promise_lt s k (by rw [is]; exact fun is => nomatch is)
      rw [promise, if_neg (Nat.ne_of_lt inside)]
      exact is
  · rintro (is | is)
    · exact absurd is early.1
    · exact absurd is early.2
  · intro nothing
    have length := congrArg List.length nothing
    rw [show ({ s.send request closes with session, phase } : System).requests = _ from rfl]
      at length
    simp [System.send] at length

/-! ### Phase by phase -/

theorem Inv.started (inv : Inv call s) (isnt : ¬ s.IsUnsent) : s.requests ≠ [] :=
  fun nothing => isnt (inv.place_unsent nothing).1

/-- **The first request is sent.** -/
theorem inv_connecting (inv : Inv call s) (was : s.phase = .connecting) {session : Nat}
    (current : s.current = some session) : Inv call
      { s.send call.request false with session, phase := .first s.requests.length } := by
  have nothing := inv.early (.inr was)
  obtain ⟨-, input, threads, files, untouched⟩ := inv.place_unsent nothing
  have zero : s.requests.length = 0 := congrArg List.length nothing
  have live : System.live { s.send call.request false with session, phase := .first s.requests.length } = true := by
    exact decide_eq_true current
  refine inv.sends (inv.current session current) ⟨[0], 0, .queued ?_ ?_ threads files ?_ untouched,
    Nat.zero_le _, ?_, (fun _ before => nomatch before), ?_⟩ ?_ zero
    ⟨(fun is => nomatch is), (fun is => nomatch is)⟩ ?_ (fun _ is => nomatch is)
  · show (s.requests ++ [_]).length = 1
    rw [nothing]
    rfl
  · show s.daemon.input ++ [⟨s.requests.length, _⟩] = _
    rw [input, zero]
    rfl
  · exact .inl (congrArg WritePhase.first zero)
  · obtain ⟨ids, answered, place, line⟩ := inv.place
    have order := line.order
    rw [zero, Nat.zero_sub] at order
    show s.daemon.output.map Prod.fst ++ [0] = List.range' 0 ((s.requests ++ [_]).length - 0)
    rw [length_append, zero, (List.append_eq_nil_iff.mp order).1]
    rfl
  · intro id _ inside
    have isZero : id = s.requests.length := by
      have inside : id < (s.requests ++ [_]).length := inside
      rw [length_append, zero, length_singleton] at inside
      omega
    refine (@promise_send s call.request false id).trans ?_
    rw [if_pos isZero, live]
    rfl
  · rintro id (pending | is)
    · have inside := @promise_lt s id (by rw [pending]; exact fun is => nomatch is)
      rw [zero] at inside
      cases inside
    · rw [is]
      exact mem_singleton_self _
  · intro sent inside isClose
    rw [nothing] at inside
    rw [List.mem_singleton.mp inside] at isClose
    cases isClose

/-- A chunk that was answered well is in the file. -/
theorem Inv.reached_of (inv : Inv call s) (opens : ∀ sent ∈ s.requests, sent.closes = false)
    (answered : s.promise id = .answered reply) (good : reply ≠ .error)
    (last : call.bytes.length ≤ (id + 1) * WRITE_CHUNK) : s.Reached call call.bytes.length := by
  have inside := @promise_lt s id (by rw [answered]; exact fun is => nomatch is)
  have found := List.getElem?_eq_getElem inside
  obtain ⟨pos, after, reached⟩ := inv.reached id _ reply found
    (opens _ (getElem_mem inside)) (.inl answered) good
  unfold WriteCall.upto at after
  rw [Nat.min_eq_right last] at after
  rwa [Nat.le_antisymm reached.1 after] at reached

/-- **The reply to the first request**: there is a handle, the whole content is written, or the call
fails. -/
theorem inv_first (inv : Inv call s) (was : s.phase = .first id)
    (advances : s.advance call = some s') : Inv call s' := by
  have isZero : id = 0 := by
    have told := inv.told
    rw [was] at told
    exact told
  subst isZero
  have started : s.requests ≠ [] := by
    refine inv.started ?_
    rintro (is | is | is) <;> rw [was] at is <;> cases is
  have opens := inv.opens (.inl ⟨_, was⟩)
  have unsettled : s.phase ≠ .settled false := by
    rw [was]
    exact fun is => nomatch is
  have handle : s.phase.handle = none := by
    rw [was]
    rfl
  have pendings (settled : s.promise 0 ≠ .pending) (id : Nat) : s.promise id ≠ .pending := by
    intro pending
    have inFlight := inv.flights id pending
    rw [was] at inFlight
    cases List.mem_singleton.mp inFlight
    exact settled pending
  -- No handle, when the reply gave none.
  have unkept (without : ∀ h, call.keep = true → ¬ s.Gives 0 (.opened h)) :
      s.live = true → ∀ h, ¬ s.KeptLink call h := by
    rintro - h (⟨-, -, given, keep⟩ | ⟨under, -⟩)
    · exact without h keep given
    · rw [handle] at under
      cases under
  unfold advance at advances
  rw [was] at advances
  cases promise : s.promise 0 with
  | pending => simp only [promise] at advances; cases advances
  | lost =>
    simp only [promise] at advances
    cases advances
    have dead := inv.live_of_lost (List.length_pos_iff.mpr started) promise
    refine inv.ends started (.inr (.inl ⟨false, rfl⟩)) unsettled (fun _ _ => ⟨dead, rfl⟩)
      (fun live => by rw [dead] at live; cases live) (pendings ?_) trivial
    rw [promise]
    exact fun is => nomatch is
  | answered reply =>
    have settled : s.promise 0 ≠ .pending := by
      rw [promise]
      exact fun is => nomatch is
    have given {phase : WritePhase} : s.phase = .first 0 → (∀ id reply, ¬ s.Gives id reply) →
        s.live = false ∧ phase = .settled false :=
      fun _ ungiven => absurd (.inl promise) (ungiven 0 reply)
    have returns (good : reply ≠ .error) (small : call.keep = false) :
        Inv call { s with phase := .returned } := by
      refine inv.ends started (.inl rfl) unsettled given (unkept ?_) (pendings settled)
        (inv.reached_of opens promise good ?_)
      · intro h kept
        rw [small] at kept
        cases kept
      · have small := of_decide_eq_false small
        omega
    cases reply with
    | error =>
      simp only [promise] at advances
      cases advances
      refine inv.ends started (.inr (.inl ⟨false, rfl⟩)) unsettled given (unkept ?_)
        (pendings settled) trivial
      intro h _ isOpened
      cases inv.gives_eq promise isOpened
    | done =>
      simp only [promise] at advances
      cases keep : call.keep with
      | true => rw [keep] at advances; cases advances
      | false =>
        rw [keep] at advances
        cases advances
        exact returns (fun is => nomatch is) keep
    | opened h =>
      simp only [promise] at advances
      cases keep : call.keep with
      | false =>
        rw [keep] at advances
        cases advances
        exact returns (fun is => nomatch is) keep
      | true =>
        rw [keep] at advances
        cases advances
        refine inv.moves ?_ ?_ ?_ ?_ (fun id pending => absurd pending (pendings settled id))
          ⟨keep, ?_⟩ ?_ ?_ ?_
        · rintro (is | is | is) <;> rw [was] at is <;> cases is
        · exact fun ungiven _ => absurd (.inl promise) (ungiven 0 (.opened h))
        · rintro h' - (⟨-, one, isOpened, -⟩ | ⟨under, -⟩)
          · cases inv.gives_eq promise isOpened
            refine .inr ⟨rfl, fun offset is => ?_⟩
            show offset = s.requests.length * WRITE_CHUNK
            rw [one, Nat.one_mul]
            exact (Option.some.inj is).symm
          · rw [handle] at under
            cases under
        · exact fun _ link => absurd (.inl promise) (link.2 0 h was keep)
        · intro k before
          have isZero : k = 0 := by
            have := Nat.lt_of_lt_of_le before (Nat.min_le_left _ _)
            by_contra positive
            have := Nat.le_mul_of_pos_left WRITE_CHUNK (Nat.pos_of_ne_zero positive)
            omega
          rw [isZero]
          exact .inr (.inr ⟨.opened h, promise, fun is => nomatch is⟩)
        · rintro (is | is) <;> cases is
        · intro sent inside isClose
          rw [opens sent inside] at isClose
          cases isClose
        · intro handle' is
          cases is
          rfl

/-- While the session lives and the call has a handle, the daemon has the file open under it. -/
theorem Inv.kept_of_handle (inv : Inv call s) (live : s.live = true)
    (under : s.phase.handle = some handle) :
    ∃ o file current answered, s.Kept call handle.id o file current ∧
      s.Line ((keptJobs s current file).map Job.id) answered ∧
      ∀ offset, s.phase.offset = some offset → offset = s.requests.length * WRITE_CHUNK := by
  obtain ⟨ids, answered, place, line⟩ := inv.place
  have notFirst : ¬ s.InFirst := by
    rintro (is | ⟨-, is⟩) <;> rw [is] at under <;> cases under
  cases place with
  | unsent phase => rcases phase with is | is | is <;> rw [is] at under <;> cases under
  | queued _ _ _ _ phase => exact absurd phase notFirst
  | starting opening | opened opening => exact absurd opening.phase notFirst
  | @kept h o file current kept =>
    rcases kept.link live with ⟨is, -⟩ | ⟨is, offsets⟩
    · rw [is] at under
      cases under
    · cases under.symm.trans is
      exact ⟨o, file, current, answered, kept, line, offsets⟩
  | quiet _ _ _ _ _ _ link =>
    rw [(link live).1] at under
    cases under

/-- **A chunk is sent**, behind the others. -/
theorem inv_chunk (inv : Inv call s) (was : s.phase = .loop handle offset inFlight)
    (more : offset < call.bytes.length) (current : s.current = some handle.session)
    (isHandle : phase.handle = some handle)
    (isOffset : ∀ n, phase.offset = some n → n = offset + WRITE_CHUNK)
    (isFlights : phase.flights = inFlight ++ [.sent s.requests.length])
    (told : call.keep = true →
      s.Covers call (inFlight ++ [.sent s.requests.length]) (offset + WRITE_CHUNK) →
        s.Told call phase) :
    Inv call { s.send (.writeChunk handle.id (call.chunk offset)) false with phase } := by
  have under : s.phase.handle = some handle := by
    rw [was]
    rfl
  have session := inv.owns handle under
  have live : s.live = true := decide_eq_true (by rw [current, session])
  obtain ⟨o, file, job, answered, kept, line, offsets⟩ := inv.kept_of_handle live under
  have isN : offset = s.requests.length * WRITE_CHUNK := offsets offset (by rw [was]; rfl)
  have length : (s.requests ++ [Sent.mk false .pending]).length = s.requests.length + 1 := by
    rw [length_append, length_singleton]
  have jobs : keptJobs { s.send (.writeChunk handle.id (call.chunk offset)) false with phase } job
      file = keptJobs s job file ++
        [⟨s.requests.length, .start (.writeChunk handle.id (call.chunk offset))⟩] := by
    show job.toList ++ (file.jobs ++ (s.daemon.input ++ [_])).map Frame.job = _
    unfold keptJobs
    rw [← append_assoc file.jobs, map_append, append_assoc]
    rfl
  have goesOn : Kept call { s.send (.writeChunk handle.id (call.chunk offset)) false with phase }
      handle.id o file job := by
    refine ⟨append_ne_nil_of_right_ne_nil _ (cons_ne_nil _ _), kept.open', kept.path,
      kept.others, kept.handle, kept.threads, kept.idle, ?_, kept.atWork, ?_, fun _ => .inr ⟨?_, ?_⟩⟩
    · intro frame inside
      have inside : frame ∈ file.jobs ++ (s.daemon.input ++ [_]) := inside
      rw [← append_assoc] at inside
      rcases List.mem_append.mp inside with before | new
      · exact kept.frames frame before
      · rw [List.mem_singleton.mp new]
        exact ⟨_, rfl⟩
    · rcases kept.flow with ⟨failed, reached⟩ | ⟨sound, pos, reached, aligned⟩
      · exact .inl ⟨failed, reached⟩
      · refine .inr ⟨sound, pos, reached, ?_⟩
        rw [jobs]
        show Aligned call (s.requests ++ [_]).length pos _
        rw [length]
        exact aligned_append aligned (isN ▸ more) _ (congrArg call.chunk isN)
    · show phase.handle = some ⟨handle.id, s.session⟩
      rw [isHandle, ← session]
    · intro n is
      have next := isOffset n is
      rw [isN, ← Nat.succ_mul] at next
      exact next.trans (congrArg (fun count => count * WRITE_CHUNK) length.symm)
  have place := Where.kept goesOn
  rw [jobs, map_append] at place
  have opens := inv.opens (.inr ⟨_, under⟩)
  refine inv.sends inv.session ⟨_, answered, place, line.sent live⟩ ?_ (told ?_ ?_) ⟨?_, ?_⟩ ?_ ?_
  · rw [isFlights]
    rintro id (pending | is)
    · have inside := inv.flights id pending
      rw [was] at inside
      exact mem_append_left _ inside
    · rw [is]
      exact mem_append_right _ (mem_singleton_self _)
  · have told := inv.told
    rw [was] at told
    exact told.1
  · have told := inv.told
    rw [was] at told
    intro k before
    have upto : k < s.requests.length + 1 := by
      refine Nat.lt_of_mul_lt_mul_right (a := WRITE_CHUNK) ?_
      rw [Nat.succ_mul, ← isN]
      omega
    rcases Nat.lt_succ_iff_lt_or_eq.mp upto with earlier | is
    · have below : k * WRITE_CHUNK < s.requests.length * WRITE_CHUNK :=
        Nat.mul_lt_mul_of_pos_right earlier (by decide)
      rcases told.2 k (by omega) with inside | refused | answered
      · exact .inl (mem_append_left _ inside)
      · exact .inr (.inl (mem_append_left _ refused))
      · exact .inr (.inr answered)
    · rw [is]
      exact .inl (mem_append_right _ (mem_singleton_self _))
  · rintro rfl
    cases isHandle
  · rintro rfl
    cases isHandle
  · intro sent inside isClose
    rcases List.mem_append.mp inside with before | new
    · rw [opens sent before] at isClose
      cases isClose
    · rw [List.mem_singleton.mp new] at isClose
      cases isClose
  · intro handle' is
    cases isHandle.symm.trans is
    exact session

theorem outcome_pending (pending : s.promise id = .pending) : s.outcome (.sent id) = none := by
  simp only [outcome, pending]

theorem outcome_true {flight : Flight} (succeeded : s.outcome flight = some true) :
    ∃ id reply, flight = .sent id ∧ s.promise id = .answered reply ∧ reply ≠ .error := by
  cases flight with
  | refused => cases succeeded
  | sent id =>
    refine ⟨id, ?_⟩
    unfold outcome at succeeded
    cases promise : s.promise id with
    | pending | lost => simp only [promise] at succeeded; cases succeeded
    | answered reply =>
      refine ⟨reply, rfl, rfl, ?_⟩
      rintro rfl
      simp only [promise] at succeeded
      cases succeeded

theorem allSettled_spec {flights : List Flight} (settled : s.allSettled flights = true)
    (inside : .sent id ∈ flights) : s.promise id ≠ .pending := by
  intro pending
  have isSome := List.all_eq_true.mp settled _ inside
  rw [outcome_pending pending] at isSome
  cases isSome

/-- When all is answered, the kept file has nothing on its way. -/
theorem Kept.nothing {h o answered : Nat} {file : FileHandle}
    {current : Option Job} (kept : s.Kept call h o file current)
    (line : s.Line ((keptJobs s current file).map Job.id) answered) (live : s.live = true)
    (settled : ∀ id, s.promise id ≠ .pending) :
    answered = s.requests.length ∧ s.daemon.output = [] ∧ current = none ∧ file.jobs = [] ∧
      s.daemon.input = [] := by
  have all : answered = s.requests.length := by
    refine Nat.le_antisymm line.le (Nat.le_of_not_lt fun less => settled answered ?_)
    rw [line.untold answered (Nat.le_refl _) less, live]
    rfl
  have order := line.order
  rw [all, Nat.sub_self] at order
  obtain ⟨output, jobs⟩ := List.append_eq_nil_iff.mp order
  obtain ⟨job, frames⟩ := List.append_eq_nil_iff.mp (List.map_eq_nil_iff.mp jobs)
  obtain ⟨queue, input⟩ := List.append_eq_nil_iff.mp (List.map_eq_nil_iff.mp frames)
  refine ⟨all, List.map_eq_nil_iff.mp output, ?_, queue, input⟩
  cases current with
  | none => rfl
  | some job => cases job

/-- **The handle is closed**, with nothing written under it. -/
theorem inv_close (inv : Inv call s) {done : Bool} (was : s.phase = .cleanup handle done inFlight)
    (settled : s.allSettled inFlight = true) (current : s.current = some handle.session) :
    Inv call { s.send (.close handle.id) true with
      phase := .closing done (.sent s.requests.length) } := by
  have under : s.phase.handle = some handle := by
    rw [was]
    rfl
  have session := inv.owns handle under
  have live : s.live = true := decide_eq_true (by rw [current, session])
  have notPending (id : Nat) : s.promise id ≠ .pending := by
    intro pending
    have inside := inv.flights id pending
    rw [was] at inside
    exact allSettled_spec settled inside pending
  obtain ⟨o, file, job, answered, kept, line, -⟩ := inv.kept_of_handle live under
  obtain ⟨-, output, rfl, queue, input⟩ := Kept.nothing kept line live notPending
  have length : (s.requests ++ [Sent.mk true .pending]).length = s.requests.length + 1 := by
    rw [length_append, length_singleton]
  have none : keptJobs s Option.none file = [] := by
    unfold keptJobs
    rw [queue, input]
    rfl
  have threads : s.daemon.threads.flatMap Thread.jobs = [] := by
    rw [kept.threads]
    cases file.running <;> rfl
  have inputs : s.daemon.input ++ [Frame.mk s.requests.length (.close handle.id)] =
      [⟨s.requests.length, .close handle.id⟩] := by
    rw [input]
    rfl
  have place : Where call { s.send (.close handle.id) true with
      phase := .closing done (.sent s.requests.length) }
      ((s.daemon.threads.flatMap Thread.jobs ++ (s.daemon.input ++
        [Frame.mk s.requests.length (.close handle.id)]).map Frame.job).map Job.id) := by
    refine .quiet (append_ne_nil_of_right_ne_nil _ (cons_ne_nil _ _)) ?_ ?_ ?_ ?_ ?_
      fun _ => ⟨rfl, fun _ _ is => nomatch is⟩
    · rcases kept.flow with ⟨-, reached⟩ | ⟨-, pos, reached, -⟩
      · exact reached
      · exact .inr ⟨pos, reached⟩
    · intro frame inside
      have inside : frame ∈ s.daemon.input ++ [Frame.mk s.requests.length (.close handle.id)] := inside
      rw [inputs] at inside
      rw [List.mem_singleton.mp inside]
      refine ⟨?_, handle.id, rfl⟩
      show ((s.requests ++ [Sent.mk true .pending]).map Sent.closes)[s.requests.length]? = _
      rw [List.getElem?_map, List.getElem?_concat_length]
      rfl
    · intro thread inside
      have inside : thread ∈ s.daemon.threads := inside
      rw [kept.threads] at inside
      split at inside
      · exact .inl ⟨o, List.mem_singleton.mp inside⟩
      · cases inside
    · intro other inside
      obtain ⟨o', found⟩ := mem_iff_getElem?.mp inside
      by_cases same : o' = o
      · rw [same] at found
        cases kept.open'.symm.trans found
        exact queue
      · exact kept.others o' other found same
    · show (s.daemon.threads.flatMap Thread.jobs ++ (s.daemon.input ++ [Frame.mk _ _]).map
        Frame.job).length ≤ 1
      rw [threads, inputs]
      exact Nat.le_refl 1
  have sent := @Line.sent s _ answered line live (.close handle.id) true
    (.closing done (.sent s.requests.length))
  rw [none] at sent
  rw [threads, inputs] at place
  refine inv.sends inv.session ⟨_, answered, place, sent⟩ ?_ ?_
    ⟨(fun is => nomatch is), (fun is => nomatch is)⟩ (fun _ _ _ => .inl ⟨_, _, rfl⟩)
    (fun _ is => nomatch is)
  · rintro id (pending | is)
    · exact absurd pending (notPending id)
    · rw [is]
      exact mem_singleton_self _
  · have told := inv.told
    rw [was] at told
    cases done with
    | false => trivial
    | true => exact told

/-- **The loop**: a chunk is sent or refused, the call is aborted, or all chunks were sent. -/
theorem inv_loop (inv : Inv call s) (was : s.phase = .loop handle offset inFlight)
    (advances : s.advance call = some s') : Inv call s' := by
  have under : s.phase.handle = some handle := by
    rw [was]
    rfl
  have flights (id : Nat) (pending : s.promise id = .pending) : .sent id ∈ inFlight := by
    have inside := inv.flights id pending
    rw [was] at inside
    exact inside
  have told := inv.told
  rw [was] at told
  unfold advance at advances
  rw [was] at advances
  by_cases more : offset < call.bytes.length
  · simp only [if_pos more] at advances
    by_cases aborted : s.aborted = true ∧ ¬ call.append = true
    · rw [if_pos aborted] at advances
      cases advances
      exact inv.keeps under rfl (fun _ _ is => nomatch is) flights trivial
    · rw [if_neg aborted] at advances
      by_cases current : s.current = some handle.session
      · rw [show s.request handle (.writeChunk handle.id (call.chunk offset)) false =
          (.sent s.requests.length, s.send (.writeChunk handle.id (call.chunk offset)) false) from
            if_pos current] at advances
        cases queue : inFlight ++ [Flight.sent s.requests.length] with
        | nil => exact absurd queue (append_ne_nil_of_right_ne_nil _ (cons_ne_nil _ _))
        | cons oldest rest =>
          simp only [queue] at advances
          split at advances
          all_goals
            cases advances
            exact inv_chunk inv was more current rfl (fun n is => (Option.some.inj is).symm) queue.symm
              fun keep covers => ⟨keep, queue ▸ covers⟩
      · -- The session has ended: the chunk is refused.
        rw [show s.request handle (.writeChunk handle.id (call.chunk offset)) false =
          (.refused, s) from if_neg current] at advances
        have dead : s.live = false := by
          refine decide_eq_false fun is => current ?_
          rw [inv.owns handle under]
          exact is
        have refuse {phase : WritePhase} (isHandle : phase.handle = some handle)
            (isFlights : phase.flights = inFlight ++ [.refused]) (told : s.Told call phase) :
            Inv call { s with phase } := by
          refine inv.keeps under isHandle (fun live => ?_) (fun id pending => ?_) told
          · rw [dead] at live
            cases live
          · rw [isFlights]
            exact mem_append_left _ (flights id pending)
        cases queue : inFlight ++ [Flight.refused] with
        | nil => exact absurd queue (append_ne_nil_of_right_ne_nil _ (cons_ne_nil _ _))
        | cons oldest rest =>
          have covers : s.Covers call (oldest :: rest) (offset + WRITE_CHUNK) := by
            intro k _
            rw [← queue]
            exact .inr (.inl (mem_append_right _ (mem_singleton_self _)))
          simp only [queue] at advances
          split at advances
          all_goals
            cases advances
            exact refuse rfl queue.symm ⟨told.1, covers⟩
  · simp only [if_neg more] at advances
    cases advances
    refine inv.keeps under rfl (fun _ _ is => nomatch is) flights ⟨told.1, fun k before => ?_⟩
    exact told.2 k (by omega)

/-- What was in flight has succeeded: the rest is in flight. -/
theorem Covers.drop {written : Flight} (covers : s.Covers call (written :: inFlight) offset)
    (succeeded : s.outcome written = some true) : s.Covers call inFlight offset := by
  obtain ⟨id, reply, rfl, answered, good⟩ := outcome_true succeeded
  intro k before
  rcases covers k before with inside | refused | told
  · rcases List.mem_cons.mp inside with is | later
    · cases is
      exact .inr (.inr ⟨reply, answered, good⟩)
    · exact .inl later
  · rcases List.mem_cons.mp refused with is | later
    · cases is
    · exact .inr (.inl later)
  · exact .inr (.inr told)

/-- When every chunk was answered well, the content is whole. -/
theorem Inv.whole (inv : Inv call s) (opens : ∀ sent ∈ s.requests, sent.closes = false)
    (keep : call.keep = true) (covers : s.Covers call [] call.bytes.length) :
    s.Reached call call.bytes.length := by
  have long : WRITE_CHUNK < call.bytes.length := of_decide_eq_true keep
  have last := Nat.div_add_mod (call.bytes.length - 1) WRITE_CHUNK
  have small := Nat.mod_lt (call.bytes.length - 1) (show 0 < WRITE_CHUNK by decide)
  rcases covers ((call.bytes.length - 1) / WRITE_CHUNK) (by
    rw [Nat.min_self, Nat.mul_comm]
    omega) with inside | inside | ⟨reply, answered, good⟩
  · cases inside
  · cases inside
  · refine inv.reached_of opens answered good ?_
    rw [Nat.succ_mul, Nat.mul_comm]
    omega

/-- **What is awaited has settled.** -/
theorem inv_await (inv : Inv call s) (under : s.phase.handle = some handle)
    (waits : (∃ written offset inFlight, s.phase = .awaitOne handle written offset inFlight) ∨
      (∃ inFlight, s.phase = .aborting handle inFlight) ∨
        ∃ left inFlight, s.phase = .awaitAll handle left inFlight)
    (advances : s.advance call = some s') : Inv call s' := by
  have told := inv.told
  have flights := inv.flights
  unfold advance at advances
  rcases waits with ⟨written, offset, inFlight, was⟩ | ⟨inFlight, was⟩ | ⟨left, inFlight, was⟩
  · rw [was] at advances told flights
    obtain ⟨succeeded, outcome, rfl⟩ := map_eq_some_iff.mp advances
    have flights (id : Nat) (pending : s.promise id = .pending) : .sent id ∈ inFlight := by
      rcases List.mem_cons.mp (flights id pending) with is | later
      · rw [← is, outcome_pending pending] at outcome
        cases outcome
      · exact later
    cases succeeded with
    | true =>
      exact inv.keeps under rfl (fun _ n is => by rw [was]; exact is) flights
        ⟨told.1, Covers.drop told.2 outcome⟩
    | false => exact inv.keeps under rfl (fun _ _ is => nomatch is) flights trivial
  · rw [was] at advances flights
    obtain ⟨-, rfl⟩ := of_guard advances
    exact inv.keeps under rfl (fun _ _ is => nomatch is) flights trivial
  · rw [was] at advances told flights
    cases left with
    | nil =>
      cases advances
      exact inv.keeps under rfl (fun _ _ is => nomatch is) flights
        (inv.whole (inv.opens (.inr ⟨_, under⟩)) told.1 told.2)
    | cons written left =>
      obtain ⟨succeeded, outcome, rfl⟩ := map_eq_some_iff.mp advances
      cases succeeded with
      | true =>
        exact inv.keeps under rfl (fun _ _ is => nomatch is) flights
          ⟨told.1, Covers.drop told.2 outcome⟩
      | false => exact inv.keeps under rfl (fun _ _ is => nomatch is) flights trivial

/-- **The end of the call**: the handle is closed, and `#write` returns or throws. -/
theorem inv_end (inv : Inv call s) (ends : (∃ handle done inFlight, s.phase = .cleanup handle done inFlight) ∨
      (∃ done close, s.phase = .closing done close) ∨ s.phase = .returned)
    (advances : s.advance call = some s') : Inv call s' := by
  have told := inv.told
  have flights := inv.flights
  have started : s.requests ≠ [] := by
    refine inv.started ?_
    rintro (is | is | is) <;> rw [is] at ends <;>
      rcases ends with ⟨_, _, _, is⟩ | ⟨_, _, is⟩ | is <;> cases is
  have unsettled : s.phase ≠ .settled false := by
    intro is
    rw [is] at ends
    rcases ends with ⟨_, _, _, is⟩ | ⟨_, _, is⟩ | is <;> cases is
  have notFirst {goal : Prop} (is : s.phase = .first 0) : goal := by
    rw [is] at ends
    rcases ends with ⟨_, _, _, is⟩ | ⟨_, _, is⟩ | is <;> cases is
  unfold advance at advances
  rcases ends with ⟨handle, done, inFlight, was⟩ | ⟨done, close, was⟩ | was
  · rw [was] at advances told flights
    obtain ⟨settled, is⟩ := ite_none_right_eq_some.mp advances
    by_cases current : s.current = some handle.session
    · rw [show s.request handle (.close handle.id) true = (.sent s.requests.length,
        s.send (.close handle.id) true) from if_pos current] at is
      cases is
      exact inv_close inv was settled current
    · rw [show s.request handle (.close handle.id) true = (.refused, s) from if_neg current] at is
      cases is
      have dead : s.live = false := by
        refine decide_eq_false fun is => current ?_
        rw [inv.owns handle (by rw [was]; rfl)]
        exact is
      refine inv.ends started (.inr (.inr ⟨done, rfl⟩)) unsettled (fun is => notFirst is)
        (fun live => by rw [dead] at live; cases live)
        (fun id pending => allSettled_spec settled (flights id pending) pending) ?_
      cases done with
      | false => trivial
      | true => exact told
  · rw [was] at advances told flights
    obtain ⟨_, outcome, rfl⟩ := map_eq_some_iff.mp advances
    have unlinked : s.live = true → ∀ h, ¬ s.KeptLink call h := by
      rintro - h (⟨is, -⟩ | ⟨is, -⟩)
      · exact notFirst is
      · rw [was] at is
        cases is
    have settled (id : Nat) : s.promise id ≠ .pending := by
      intro pending
      have is := List.mem_singleton.mp (flights id pending)
      rw [← is, outcome_pending pending] at outcome
      cases outcome
    cases done with
    | true =>
      exact inv.ends started (.inl rfl) unsettled (fun is => notFirst is) unlinked settled told
    | false =>
      exact inv.ends started (.inr (.inl ⟨false, rfl⟩)) unsettled (fun is => notFirst is) unlinked
        settled trivial
  · rw [was] at advances told flights
    cases advances
    refine inv.ends started (.inr (.inl ⟨_, rfl⟩)) unsettled (fun is => notFirst is) ?_
      (fun id pending => nomatch flights id pending) ?_
    · rintro - h (⟨is, -⟩ | ⟨is, -⟩)
      · exact notFirst is
      · rw [was] at is
        cases is
    · cases decide (¬ (call.append = true ∧ s.aborted = true)) with
      | false => trivial
      | true => exact told

/-- **The call goes on.** -/
theorem inv_advance (inv : Inv call s) (advances : s.advance call = some s') : Inv call s' := by
  cases was : s.phase with
  | begun =>
    unfold advance at advances
    rw [was] at advances
    cases advances
    refine inv_unsent inv (.inl was) ?_
    split
    · exact .inr rfl
    · exact .inl rfl
  | connecting =>
    unfold advance at advances
    rw [was] at advances
    obtain ⟨session, current, rfl⟩ := map_eq_some_iff.mp advances
    exact inv_connecting inv was current
  | first id => exact inv_first inv was advances
  | loop handle offset inFlight => exact inv_loop inv was advances
  | awaitOne handle written offset inFlight =>
    exact inv_await inv (by rw [was]; rfl) (.inl ⟨_, _, _, was⟩) advances
  | aborting handle inFlight =>
    exact inv_await inv (by rw [was]; rfl) (.inr (.inl ⟨_, was⟩)) advances
  | awaitAll handle left inFlight =>
    exact inv_await inv (by rw [was]; rfl) (.inr (.inr ⟨_, _, was⟩)) advances
  | cleanup handle done inFlight => exact inv_end inv (.inl ⟨_, _, _, was⟩) advances
  | closing done close => exact inv_end inv (.inr (.inl ⟨_, _, was⟩)) advances
  | returned => exact inv_end inv (.inr (.inr was)) advances
  | settled done =>
    unfold advance at advances
    rw [was] at advances
    cases advances

/-! ### Runs -/

theorem request_before {handle : RemoteHandle} {request : Request} {closes : Bool} :
    (s.request handle request closes).2.before = s.before := by
  unfold System.request
  split <;> rfl

theorem advance_before (advances : s.advance call = some s') : s'.before = s.before := by
  unfold advance at advances
  cases was : s.phase with
  | connecting | awaitOne | closing =>
    rw [was] at advances
    obtain ⟨_, -, rfl⟩ := map_eq_some_iff.mp advances
    rfl
  | loop handle offset inFlight =>
    have request := @request_before s handle (.writeChunk handle.id (call.chunk offset)) false
    simp only [was] at advances
    split at advances
    · split at advances
      · cases advances
        rfl
      · split at advances
        · split at advances <;> cases advances <;> exact request
        · cases advances
    · cases advances
      rfl
  | cleanup handle done inFlight =>
    rw [was] at advances
    obtain ⟨-, rfl⟩ := of_guard advances
    exact request_before
  | awaitAll handle left inFlight =>
    cases left with
    | nil =>
      rw [was] at advances
      cases advances
      rfl
    | cons written left =>
      rw [was] at advances
      obtain ⟨_, -, rfl⟩ := map_eq_some_iff.mp advances
      rfl
  | first id =>
    simp only [was] at advances
    split at advances
    · cases advances
    · split at advances <;> cases advances
      rfl
    all_goals
      cases advances
      rfl
  | aborting =>
    rw [was] at advances
    obtain ⟨-, rfl⟩ := of_guard advances
    rfl
  | begun | returned | settled =>
    rw [was] at advances
    cases advances
    try rfl

theorem step_before {event : SystemEvent} (steps : s.step call event = some s') :
    s'.before = s.before := by
  cases event with
  | advance => exact advance_before steps
  | thread i choice =>
    obtain ⟨-, is⟩ := ite_none_right_eq_some.mp steps
    obtain ⟨_, -, rfl⟩ := map_eq_some_iff.mp is
    rfl
  | otherOpens path =>
    cases path with
    | none =>
      obtain ⟨_, -, rfl⟩ := map_eq_some_iff.mp steps
      rfl
    | some path =>
      obtain ⟨-, is⟩ := Option.ite_none_left_eq_some.mp steps
      obtain ⟨_, -, rfl⟩ := map_eq_some_iff.mp is
      rfl
  | _ =>
    simp only [step, connect, lose, dispatch] at steps
    grind

/-- **One step.** -/
theorem inv_step (inv : Inv call s) {event : SystemEvent} (steps : s.step call event = some s') :
    Inv call s' := by
  cases event with
  | abort =>
    cases steps
    exact inv_abort inv
  | advance => exact inv_advance inv steps
  | connectFails =>
    unfold step at steps
    cases was : s.phase with
    | connecting =>
      simp only [was] at steps
      cases steps
      exact inv_unsent inv (.inr was) (.inr rfl)
    | _ => simp only [was] at steps; cases steps
  | connect =>
    obtain ⟨ended, rfl⟩ := of_guard steps
    exact inv_connect inv ended
  | lose =>
    cases steps
    exact inv_lose inv
  | receive =>
    unfold step at steps
    cases next : s.daemon.output with
    | nil => simp only [next] at steps; cases steps
    | cons reply rest =>
      simp only [next] at steps
      obtain ⟨live, rfl⟩ := of_guard steps
      exact inv_receive inv next live
  | read =>
    unfold step at steps
    cases next : s.daemon.input with
    | nil => simp only [next] at steps; cases steps
    | cons frame rest =>
      simp only [next] at steps
      obtain ⟨-, rfl⟩ := of_guard steps
      exact inv_read inv next
  | thread i choice => exact inv_thread inv (ite_none_right_eq_some.mp steps).2
  | stop =>
    cases steps
    exact inv_stop inv
  | otherOpens path =>
    cases path with
    | none =>
      obtain ⟨opened, inserted, rfl⟩ := map_eq_some_iff.mp steps
      exact inv_otherReads inv inserted
    | some path =>
      obtain ⟨-, is⟩ := Option.ite_none_left_eq_some.mp steps
      obtain ⟨opened, inserted, rfl⟩ := map_eq_some_iff.mp is
      exact inv_otherOpens inv inserted
  | otherCloses handle =>
    obtain ⟨other, rfl⟩ := of_guard steps
    exact inv_otherCloses inv other
  | otherWrites path bytes =>
    obtain ⟨apart, rfl⟩ := of_refusal steps
    exact inv_otherWrites inv apart bytes

theorem inv_run (inv : Inv call s) {events : List SystemEvent}
    (runs : s.run call events = some s') : Inv call s' := by
  induction events generalizing s with
  | nil =>
    cases runs
    exact inv
  | cons event rest ih =>
    obtain ⟨middle, steps, runs⟩ := Option.bind_eq_some_iff.mp runs
    exact ih (inv_step inv steps) runs

theorem run_before {events : List SystemEvent} (runs : s.run call events = some s') :
    s'.before = s.before := by
  induction events generalizing s with
  | nil =>
    cases runs
    rfl
  | cons event rest ih =>
    obtain ⟨middle, steps, runs⟩ := Option.bind_eq_some_iff.mp runs
    exact (ih runs).trans (step_before steps)

theorem Inv.isPartial (inv : Inv call s) : s.Partial call := by
  obtain ⟨ids, answered, place, -⟩ := inv.place
  cases place with
  | unsent _ _ _ _ _ untouched | queued _ _ _ _ _ untouched | starting _ _ untouched =>
    exact .inl untouched
  | opened _ pos _ _ reached => exact .inr ⟨pos, reached⟩
  | kept kept =>
    rcases kept.flow with ⟨-, reached⟩ | ⟨-, pos, reached, -⟩
    · exact reached
    · exact .inr ⟨pos, reached⟩
  | quiet _ reached => exact reached

/-- **Remote writes leave no gap.** In every run the file is as it was, or holds what it is opened
with and a beginning of the content; all of it when the call has succeeded. What the daemon writes
goes to the file of the call, and not once the call has settled on a session that lives. -/
theorem noGap_run (disk : Disk) {events : List SystemEvent}
    (runs : (start call disk).run call events = some s) :
    (s.disk call.path = disk call.path ∨ ∃ pos ≤ call.bytes.length, s.disk call.path =
      (if call.append then disk call.path else []) ++ call.bytes.take pos) ∧
    (s.phase = .settled true →
      s.disk call.path = (if call.append then disk call.path else []) ++ call.bytes) ∧
    ∀ w ∈ s.writes, w = (call.path, false) := by
  have inv := inv_run (inv_start disk) runs
  have before : s.before = disk call.path := run_before runs
  have base : s.base call = if call.append then disk call.path else [] := by
    unfold System.base
    rw [before]
  refine ⟨?_, fun settled => ?_, inv.writes⟩
  · rcases inv.isPartial with same | ⟨pos, within, reached⟩
    · exact .inl (same.trans before)
    · exact .inr ⟨pos, within, base ▸ reached⟩
  · have told := inv.told
    rw [settled] at told
    have whole := told.2
    rwa [take_length, base] at whole

/-- Three bytes in two writes of the system. -/
def shortWrite : List SystemEvent :=
  [.advance, .connect, .advance, .read, .thread 0 .go, .thread 0 (.some 2), .thread 0 (.some 1),
    .thread 0 .go, .receive, .advance, .advance]

theorem noGap_run_short :
    ∃ s, (start ⟨[], [1, 2, 3], false⟩ fun _ => [9]).run ⟨[], [1, 2, 3], false⟩ shortWrite = some s ∧
      s.phase = .settled true ∧ s.disk [] = [1, 2, 3] :=
  ⟨_, rfl, rfl, (@noGap_run ⟨[], [1, 2, 3], false⟩ _ (fun _ => [9]) shortWrite rfl).2.1 rfl⟩

end System

end TianGong.Remote
