/-
**What a remote write keeps.**

The invariant of `System`, over the daemon's queue and the client's promises.

* `Where`: how far the daemon is with the call.
* `Inv`: the invariant.
-/

import TianGong.Remote.Write

namespace TianGong.Remote

/-! ### The file -/

/-- Where a chunk ends in the content; its request has the same number. -/
def WriteCall.upto (call : WriteCall) (id : Nat) : Nat :=
  min ((id + 1) * WRITE_CHUNK) call.bytes.length

/-- The bytes that a part of a job has left. -/
def JobState.rest : JobState → List UInt8
  | .start (.write _ _ _ payload) => payload
  | .start (.writeChunk _ payload) => payload
  | .start (.close _) => []
  | .write _ _ rest => rest
  | .chunk _ rest => rest

def Frame.job (frame : Frame) : Job := ⟨frame.id, .start frame.request⟩

def Thread.jobs : Thread → List Job
  | .respond job => [job]
  | .drain _ current => current.toList

def WritePhase.handle : WritePhase → Option RemoteHandle
  | .loop handle .. | .awaitOne handle .. | .aborting handle _ | .awaitAll handle ..
  | .cleanup handle .. => some handle
  | _ => none

/-- The offset of the loop. -/
def WritePhase.offset : WritePhase → Option Nat
  | .loop _ offset _ | .awaitOne _ _ offset _ => some offset
  | _ => none

/-- The promises that a call holds. -/
def WritePhase.flights : WritePhase → List Flight
  | .first id => [.sent id]
  | .loop _ _ inFlight | .aborting _ inFlight | .awaitAll _ _ inFlight
  | .cleanup _ _ inFlight => inFlight
  | .awaitOne _ written _ inFlight => written :: inFlight
  | .closing _ close => [close]
  | _ => []

/-- The chunks follow each other from a position, up to all that was sent. -/
def Aligned (call : WriteCall) (sent : Nat) : Nat → List Job → Prop
  | pos, [] => pos = min (sent * WRITE_CHUNK) call.bytes.length
  | pos, job :: jobs => pos ≤ call.upto job.id ∧
    job.state.rest = (call.bytes.drop pos).take (call.upto job.id - pos) ∧
    Aligned call sent (call.upto job.id) jobs

theorem aligned_append {call : WriteCall} {sent pos : Nat} {jobs : List Job}
    (aligned : Aligned call sent pos jobs) (more : sent * WRITE_CHUNK < call.bytes.length)
    (request : Request) (rest : (JobState.start request).rest = call.chunk (sent * WRITE_CHUNK)) :
    Aligned call (sent + 1) pos (jobs ++ [⟨sent, .start request⟩]) := by
  induction jobs generalizing pos with
  | nil =>
    have here : pos = sent * WRITE_CHUNK := aligned.trans (Nat.min_eq_left (Nat.le_of_lt more))
    subst here
    refine ⟨?_, ?_, rfl⟩
    · show sent * WRITE_CHUNK ≤ min ((sent + 1) * WRITE_CHUNK) _
      rw [Nat.succ_mul]
      omega
    · show (JobState.start request).rest =
        (call.bytes.drop _).take (min ((sent + 1) * WRITE_CHUNK) _ - _)
      rw [rest, Nat.succ_mul]
      unfold WriteCall.chunk
      rw [List.take_eq_take_iff, List.length_drop]
      omega
  | cons job jobs ih => exact ⟨aligned.1, aligned.2.1, ih aligned.2.2⟩

namespace System

variable {call : WriteCall} {s s' : System}

section Statement

variable (call) (s)

/-- What the file is opened with. -/
def base : List UInt8 := if call.append then s.before else []

/-- The file holds the content up to a position. -/
def Reached (pos : Nat) : Prop :=
  pos ≤ call.bytes.length ∧ s.disk call.path = s.base call ++ call.bytes.take pos

/-- The file is as it was, or holds a beginning of the content. -/
def Partial : Prop := s.disk call.path = s.before ∨ ∃ pos, s.Reached call pos

/-- A reply to a request has been given. -/
def Gives (id : Nat) (reply : Reply) : Prop :=
  s.promise id = .answered reply ∨ (id, reply) ∈ s.daemon.output

/-- Nothing was sent. -/
def IsUnsent : Prop :=
  s.phase = .begun ∨ s.phase = .connecting ∨ s.phase = .settled false

/-- The call waits for its first request, or has lost it. -/
def InFirst : Prop := s.phase = .first 0 ∨ (s.live = false ∧ s.phase = .settled false)

/-- The call writes under the handle of its file, or is about to. -/
def KeptLink (h : Nat) : Prop :=
  (s.phase = .first 0 ∧ s.requests.length = 1 ∧ s.Gives 0 (.opened h) ∧ call.keep = true) ∨
  (s.phase.handle = some ⟨h, s.session⟩ ∧
    ∀ offset, s.phase.offset = some offset → offset = s.requests.length * WRITE_CHUNK)

/-- The call writes under no handle. -/
def QuietLink : Prop :=
  s.phase.handle = none ∧ ∀ id h, s.phase = .first id → call.keep = true → ¬ s.Gives id (.opened h)

/-- The jobs on a kept file: the one at work, those in its queue, and those that were not read. -/
def keptJobs (current : Option Job) (file : FileHandle) : List Job :=
  current.toList ++ (file.jobs ++ s.daemon.input).map Frame.job

/-- The daemon has the call's file open, under a handle. -/
structure Kept (h o : Nat) (file : FileHandle) (current : Option Job) : Prop where
  something : s.requests ≠ []
  open' : s.daemon.files[o]? = some file
  path : file.path = call.path
  others : ∀ o' other, s.daemon.files[o']? = some other → o' ≠ o → other.jobs = []
  handle : s.daemon.file h = some o
  threads : s.daemon.threads = if file.running then [.drain o current] else []
  idle : file.running = false → file.jobs = [] ∧ current = none
  frames : ∀ frame ∈ file.jobs ++ s.daemon.input, ∃ payload, frame.request = .writeChunk h payload
  atWork : ∀ job, current = some job → (∃ payload, job.state = .start (.writeChunk h payload)) ∨
    (file.failed = false ∧ ∃ rest, job.state = .chunk o rest)
  flow : (file.failed = true ∧ s.Partial call) ∨ (file.failed = false ∧
    ∃ pos, s.Reached call pos ∧ Aligned call s.requests.length pos (keptJobs s current file))
  link : s.live = true → s.KeptLink call h

/-- A request is a `close`. -/
def IsClose (id : Nat) : Prop := (s.requests.map Sent.closes)[id]? = some true

/-- While the first request is at work. -/
structure Opening : Prop where
  one : s.requests.length = 1
  input : s.daemon.input = []
  files : ∀ file ∈ s.daemon.files, file.jobs = []
  phase : s.InFirst

/-- **How far the daemon is**; the requests that are on their way. -/
inductive Where : List Nat → Prop
  | unsent (phase : s.IsUnsent)
      (nothing : s.requests = []) (input : s.daemon.input = []) (threads : s.daemon.threads = [])
      (files : ∀ file ∈ s.daemon.files, file.jobs = [])
      (untouched : s.disk call.path = s.before) : Where []
  | queued (one : s.requests.length = 1) (input : s.daemon.input = [⟨0, call.request⟩])
      (threads : s.daemon.threads = []) (files : ∀ file ∈ s.daemon.files, file.jobs = [])
      (phase : s.InFirst)
      (untouched : s.disk call.path = s.before) : Where [0]
  | starting (opening : s.Opening)
      (threads : s.daemon.threads = [.respond ⟨0, .start call.request⟩])
      (untouched : s.disk call.path = s.before) : Where [0]
  | opened (opening : s.Opening) (pos : Nat)
      (threads : s.daemon.threads =
        [.respond ⟨0, .write call.path call.keep (call.first.drop pos)⟩])
      (within : pos ≤ call.first.length) (reached : s.Reached call pos) : Where [0]
  | kept {h o : Nat} {file : FileHandle} {current : Option Job} (kept : s.Kept call h o file current) :
      Where ((keptJobs s current file).map Job.id)
  | quiet (something : s.requests ≠ []) (reached : s.Partial call)
      (input : ∀ frame ∈ s.daemon.input, s.IsClose frame.id ∧ ∃ h, frame.request = .close h)
      (threads : ∀ thread ∈ s.daemon.threads, (∃ o, thread = .drain o none) ∨
        ∃ id h, s.IsClose id ∧ thread = .respond ⟨id, .start (.close h)⟩)
      (files : ∀ file ∈ s.daemon.files, file.jobs = [])
      (few : (s.daemon.threads.flatMap Thread.jobs ++ s.daemon.input.map Frame.job).length ≤ 1)
      (link : s.live = true → s.QuietLink call) :
      Where ((s.daemon.threads.flatMap Thread.jobs ++ s.daemon.input.map Frame.job).map Job.id)

/-- Replies and requests on their way are those that were not answered, in order. -/
structure Line (ids : List Nat) (answered : Nat) : Prop where
  le : answered ≤ s.requests.length
  order : s.daemon.output.map Prod.fst ++ ids = List.range' answered (s.requests.length - answered)
  told : ∀ id < answered, ∃ reply, s.promise id = .answered reply
  untold : ∀ id, answered ≤ id → id < s.requests.length →
    s.promise id = if s.live then .pending else .lost

/-- Each chunk before an offset is in flight, or was answered; or one was refused. -/
def Covers (flights : List Flight) (offset : Nat) : Prop :=
  ∀ k, k * WRITE_CHUNK < min offset call.bytes.length →
    .sent k ∈ flights ∨ .refused ∈ flights ∨ ∃ reply, s.promise k = .answered reply ∧ reply ≠ .error

/-- **What the client was told**, in each phase. -/
def Told : WritePhase → Prop
  | .first id => id = 0
  | .loop _ offset inFlight => call.keep = true ∧ s.Covers call inFlight offset
  | .awaitOne _ written offset inFlight =>
    call.keep = true ∧ s.Covers call (written :: inFlight) offset
  | .awaitAll _ left _ => call.keep = true ∧ s.Covers call left call.bytes.length
  | .cleanup _ true _ | .closing true _ | .returned | .settled true =>
    s.Reached call call.bytes.length
  | _ => True

/-- The invariant. -/
structure Inv : Prop where
  place : ∃ ids answered, s.Where call ids ∧ s.Line ids answered
  reached : ∀ id sent reply, s.requests[id]? = some sent → sent.closes = false →
    s.Gives id reply → reply ≠ .error → ∃ pos, call.upto id ≤ pos ∧ s.Reached call pos
  flights : ∀ id, s.promise id = .pending → .sent id ∈ s.phase.flights
  told : s.Told call s.phase
  early : s.phase = .begun ∨ s.phase = .connecting → s.requests = []
  closes : ∀ sent ∈ s.requests, sent.closes = true →
    (∃ done close, s.phase = .closing done close) ∨ s.phase = .returned ∨
      ∃ done, s.phase = .settled done
  writes : ∀ w ∈ s.writes, w = (call.path, false)
  fresh : ∀ handle ∈ Assoc.keys s.daemon.handles, handle < s.daemon.nextHandle
  session : s.session ≤ s.sessions
  owns : ∀ handle, s.phase.handle = some handle → handle.session = s.session
  current : ∀ session, s.current = some session → session ≤ s.sessions
  unsent : s.requests = [] → s.session = 0
  positive : ∀ session, s.current = some session → 0 < session

end Statement

/-! ### States that differ little -/

/-- The daemon is as far with the call in both. -/
structure Alike (call : WriteCall) (s s' : System) : Prop where
  kinds : s'.requests.map Sent.closes = s.requests.map Sent.closes
  input : s'.daemon.input = s.daemon.input
  threads : s'.daemon.threads = s.daemon.threads
  disk : s'.disk call.path = s.disk call.path
  before : s'.before = s.before
  live : s'.live = true → s.live = true
  same : ∀ (o : Nat) (file : FileHandle), s.daemon.files[o]? = some file →
    s'.daemon.files[o]? = some file
  more : ∀ (o : Nat) (file : FileHandle), s'.daemon.files[o]? = some file →
    s.daemon.files[o]? = some file ∨ file.jobs = []
  handle : ∀ (h o : Nat) (file : FileHandle), s.daemon.file h = some o →
    s.daemon.files[o]? = some file → file.path = call.path → s'.daemon.file h = some o

variable (alike : Alike call s s')
include alike

theorem Alike.count : s'.requests.length = s.requests.length := by
  have same := congrArg List.length alike.kinds
  rwa [List.length_map, List.length_map] at same

theorem Alike.isClose {id : Nat} : s'.IsClose id ↔ s.IsClose id := by
  unfold IsClose
  rw [alike.kinds]

theorem Alike.reached {pos : Nat} (reached : s.Reached call pos) : s'.Reached call pos := by
  refine ⟨reached.1, ?_⟩
  unfold base
  rw [alike.disk, alike.before]
  exact reached.2

theorem Alike.partial' (reached : s.Partial call) : s'.Partial call := by
  rcases reached with same | ⟨pos, reached⟩
  · left
    rw [alike.disk, alike.before]
    exact same
  · exact .inr ⟨pos, alike.reached reached⟩

theorem Alike.files (files : ∀ file ∈ s.daemon.files, file.jobs = []) :
    ∀ file ∈ s'.daemon.files, file.jobs = [] := by
  intro file inside
  obtain ⟨o, found⟩ := List.mem_iff_getElem?.mp inside
  rcases alike.more o file found with before | empty
  · exact files file (List.mem_of_getElem? before)
  · exact empty

theorem Alike.keptJobs (current : Option Job) (file : FileHandle) :
    keptJobs s' current file = keptJobs s current file := by
  unfold System.keptJobs
  rw [alike.input]

theorem Alike.kept {h o : Nat} {file : FileHandle} {current : Option Job}
    (kept : s.Kept call h o file current) (link : s'.live = true → s'.KeptLink call h) :
    s'.Kept call h o file current where
  something := by
    intro is
    refine kept.something (List.eq_nil_of_length_eq_zero ?_)
    rw [← alike.count, is]
    rfl
  open' := alike.same o file kept.open'
  path := kept.path
  others := by
    intro o' other found apart
    rcases alike.more o' other found with before | empty
    · exact kept.others o' other before apart
    · exact empty
  handle := alike.handle h o file kept.handle kept.open' kept.path
  threads := alike.threads.trans kept.threads
  idle := kept.idle
  frames := by
    rw [alike.input]
    exact kept.frames
  atWork := kept.atWork
  flow := by
    rcases kept.flow with ⟨failed, reached⟩ | ⟨sound, pos, reached, aligned⟩
    · exact .inl ⟨failed, alike.partial' reached⟩
    · refine .inr ⟨sound, pos, alike.reached reached, ?_⟩
      rw [alike.count, alike.keptJobs]
      exact aligned
  link := link

/-- **As far as before**, if the call's phase goes with it. -/
theorem Alike.place {ids : List Nat} (place : s.Where call ids) (unsent : s.IsUnsent → s'.IsUnsent)
    (first : ids = [0] → s.requests.length = 1 → s.InFirst → s'.InFirst)
    (kept : ∀ h, s'.live = true → s.KeptLink call h → s'.KeptLink call h)
    (quiet : s'.live = true → s.QuietLink call → s'.QuietLink call) : s'.Where call ids := by
  cases place with
  | unsent phase nothing input threads files untouched =>
    refine .unsent (unsent phase) ?_ (alike.input.trans input) (alike.threads.trans threads)
      (alike.files files) ?_
    · exact List.eq_nil_of_length_eq_zero (alike.count.trans (List.length_eq_zero_iff.mpr nothing))
    · rw [alike.disk, alike.before]
      exact untouched
  | queued one input threads files phase untouched =>
    refine .queued (alike.count.trans one) (alike.input.trans input)
      (alike.threads.trans threads) (alike.files files) (first rfl one phase) ?_
    rw [alike.disk, alike.before]
    exact untouched
  | starting opening threads untouched =>
    refine .starting ⟨alike.count.trans opening.one, alike.input.trans opening.input,
      alike.files opening.files, first rfl opening.one opening.phase⟩ (alike.threads.trans threads) ?_
    rw [alike.disk, alike.before]
    exact untouched
  | opened opening pos threads within reached =>
    exact .opened ⟨alike.count.trans opening.one, alike.input.trans opening.input,
      alike.files opening.files, first rfl opening.one opening.phase⟩ pos (alike.threads.trans threads) within
      (alike.reached reached)
  | @kept h o file current isKept =>
    have goesOn : s'.Kept call h o file current :=
      alike.kept isKept fun live => kept h live (isKept.link (alike.live live))
    have := Where.kept goesOn
    rwa [alike.keptJobs] at this
  | quiet something reached input threads files few link =>
    have goesOn : s'.Where call ((s'.daemon.threads.flatMap Thread.jobs ++
        s'.daemon.input.map Frame.job).map Job.id) := by
      refine .quiet ?_ (alike.partial' reached) ?_ ?_ (alike.files files) ?_
        fun live => quiet live (link (alike.live live))
      · intro is
        refine something (List.eq_nil_of_length_eq_zero ?_)
        rw [← alike.count, is]
        rfl
      · rw [alike.input]
        simpa only [alike.isClose] using input
      · rw [alike.threads]
        simpa only [alike.isClose] using threads
      · rw [alike.threads, alike.input]
        exact few
    rwa [alike.threads, alike.input] at goesOn

omit alike

/-- The client is as far with the call in both. -/
structure Unmoved (s s' : System) : Prop where
  requests : s'.requests = s.requests
  output : s'.daemon.output = s.daemon.output
  phase : s'.phase = s.phase
  session : s'.session = s.session
  live : s'.live = s.live

section

variable (unmoved : Unmoved s s')
include unmoved

theorem Unmoved.promise (id : Nat) : s'.promise id = s.promise id := by
  unfold System.promise
  rw [unmoved.requests]

theorem Unmoved.gives {id : Nat} {reply : Reply} : s'.Gives id reply ↔ s.Gives id reply := by
  unfold Gives
  rw [unmoved.promise, unmoved.output]

theorem Unmoved.keptLink {h : Nat} : s'.KeptLink call h ↔ s.KeptLink call h := by
  unfold KeptLink
  rw [unmoved.phase, unmoved.requests, unmoved.session, unmoved.gives]

theorem Unmoved.quietLink : s'.QuietLink call ↔ s.QuietLink call := by
  unfold QuietLink
  rw [unmoved.phase]
  simp only [unmoved.gives]

theorem Unmoved.line {ids : List Nat} {answered : Nat} (line : s.Line ids answered) :
    s'.Line ids answered where
  le := by
    rw [unmoved.requests]
    exact line.le
  order := by
    rw [unmoved.output, unmoved.requests]
    exact line.order
  told := by
    intro id before
    rw [unmoved.promise]
    exact line.told id before
  untold := by
    intro id after inside
    rw [unmoved.promise, unmoved.live]
    rw [unmoved.requests] at inside
    exact line.untold id after inside

theorem Unmoved.covers {flights : List Flight} {offset : Nat}
    (covers : s.Covers call flights offset) : s'.Covers call flights offset := by
  intro k before
  rw [unmoved.promise]
  exact covers k before

end

theorem told_of (covers : ∀ {flights offset}, s.Covers call flights offset →
      s'.Covers call flights offset)
    (reached : s.Reached call call.bytes.length → s'.Reached call call.bytes.length)
    {phase : WritePhase} (told : s.Told call phase) : s'.Told call phase := by
  cases phase with
  | loop | awaitOne | awaitAll => exact ⟨told.1, covers told.2⟩
  | cleanup _ done | closing done | settled done =>
    cases done with
    | false => trivial
    | true => exact reached told
  | returned => exact reached told
  | first => exact told
  | begun | connecting | aborting => trivial

/-- **Nothing happened to the call.** -/
theorem Inv.unmoved (inv : Inv call s) (alike : Alike call s s') (unmoved : Unmoved s s')
    (writes : s'.writes = s.writes)
    (fresh : ∀ handle ∈ Assoc.keys s'.daemon.handles, handle < s'.daemon.nextHandle)
    (sessions : s.sessions ≤ s'.sessions)
    (current : ∀ session, s'.current = some session → 0 < session ∧ session ≤ s'.sessions) :
    Inv call s' where
  place := by
    obtain ⟨ids, answered, place, line⟩ := inv.place
    refine ⟨ids, answered, alike.place place ?_ ?_ ?_ ?_, unmoved.line line⟩
    · unfold IsUnsent
      rw [unmoved.phase]
      exact fun is => is
    · unfold InFirst
      rw [unmoved.phase, unmoved.live]
      exact fun _ _ is => is
    · exact fun h _ link => unmoved.keptLink.mpr link
    · exact fun _ link => unmoved.quietLink.mpr link
  reached := by
    intro id sent reply found opens gives good
    rw [unmoved.requests] at found
    obtain ⟨pos, before, reached⟩ :=
      inv.reached id sent reply found opens (unmoved.gives.mp gives) good
    exact ⟨pos, before, alike.reached reached⟩
  flights := by
    intro id pending
    rw [unmoved.promise] at pending
    rw [unmoved.phase]
    exact inv.flights id pending
  told := by
    rw [unmoved.phase]
    exact told_of unmoved.covers alike.reached inv.told
  early := by
    rw [unmoved.phase, unmoved.requests]
    exact inv.early
  closes := by
    rw [unmoved.phase, unmoved.requests]
    exact inv.closes
  writes := by
    rw [writes]
    exact inv.writes
  fresh := fresh
  session := by
    rw [unmoved.session]
    exact inv.session.trans sessions
  owns := by
    rw [unmoved.phase, unmoved.session]
    exact inv.owns
  current := fun session is => (current session is).2
  unsent := by
    rw [unmoved.requests, unmoved.session]
    exact inv.unsent
  positive := fun session is => (current session is).1

end System

end TianGong.Remote
