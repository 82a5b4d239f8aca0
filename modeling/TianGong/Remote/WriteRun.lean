/-
**Around a remote write.**

The daemon, the connection and the others keep the invariant of `System`.

* `inv_abort`, `inv_otherWrites`, `inv_connect`, `inv_lose`, `inv_receive`: what happens around the
  call.
* `inv_starting`, `inv_opened`, `inv_kept`, `inv_quiet`: a thread takes a step, in each of the
  places where the daemon can be.
-/

import TianGong.Remote.WriteInv

namespace TianGong.Remote

open List

/-! ### Handles -/

variable {handle : Handle} {h o new : Nat} {path : Text}

namespace Daemon

variable {d d' : Daemon}

theorem insert_some (inserted : d.insert handle = some (new, d')) :
    new = d.nextHandle ∧ d' = { d with
      handles := d.handles ++ [(d.nextHandle, handle)], nextHandle := d.nextHandle + 1 } := by
  unfold insert at inserted
  split at inserted
  · cases inserted
  · cases inserted
    exact ⟨rfl, rfl⟩

/-- What handles there are in a daemon is what they open. -/
theorem file_insert (inserted : d.insert handle = some (new, d')) (found : d.file h = some o) :
    d'.file h = some o := by
  obtain ⟨-, rfl⟩ := insert_some inserted
  have inside : h ∈ Assoc.keys d.handles := by
    by_contra absent
    have none := Assoc.get_eq_none_iff.mpr absent
    unfold file at found
    rw [none] at found
    cases found
  unfold file at found ⊢
  rw [show Assoc.get h (d.handles ++ [(d.nextHandle, handle)]) = Assoc.get h d.handles from
    Assoc.get_append_of_mem inside _]
  exact found

theorem file_erase {h' : Nat} (found : d.file h = some o) (apart : h' ≠ h) :
    ({ d with handles := Assoc.erase h' d.handles } : Daemon).file h = some o := by
  unfold file at found ⊢
  rw [show Assoc.get h (Assoc.erase h' d.handles) = Assoc.get h d.handles from
    Assoc.get_erase_ne apart _]
  exact found

/-- A file that is opened gets a handle of its own. -/
theorem insertFile_some (inserted : d.insertFile path = some (new, d'))
    (fresh : ∀ h ∈ Assoc.keys d.handles, h < d.nextHandle) :
    d' = { d with
      files := d.files ++ [⟨path, false, [], false⟩]
      handles := d.handles ++ [(d.nextHandle, .file d.files.length)]
      nextHandle := d.nextHandle + 1 } ∧
    d'.file new = some d.files.length := by
  obtain ⟨rfl, rfl⟩ := insert_some inserted
  refine ⟨rfl, ?_⟩
  have absent : d.nextHandle ∉ Assoc.keys d.handles := fun inside =>
    Nat.lt_irrefl _ (fresh d.nextHandle inside)
  unfold file
  rw [show Assoc.get d.nextHandle (d.handles ++ [(d.nextHandle, .file d.files.length)]) =
    Assoc.get d.nextHandle [(d.nextHandle, .file d.files.length)] from
    Assoc.get_append_of_notMem absent _, Assoc.get_cons_self]

theorem fresh_insert (inserted : d.insert handle = some (new, d'))
    (fresh : ∀ h ∈ Assoc.keys d.handles, h < d.nextHandle) :
    ∀ h ∈ Assoc.keys d'.handles, h < d'.nextHandle := by
  obtain ⟨-, rfl⟩ := insert_some inserted
  intro h inside
  rw [Assoc.keys_append] at inside
  rcases List.mem_append.mp inside with before | new
  · exact Nat.lt_succ_of_lt (fresh h before)
  · rw [List.mem_singleton.mp new]
    exact Nat.lt_succ_self _

theorem keys_erase_subset {h' : Nat} {handles : List (Nat × Handle)}
    (inside : h ∈ Assoc.keys (Assoc.erase h' handles)) : h ∈ Assoc.keys handles := by
  obtain ⟨entry, isEntry, rfl⟩ := List.mem_map.mp inside
  exact mem_map_of_mem (mem_of_mem_filter isEntry)

end Daemon

variable {disk : Disk} {job : Job} {current : Option Job} {i : Nat} {choice : Choice}
  {stepped : Stepped}

variable {frame : Frame} {file : FileHandle}

variable {id answered : Nat} {d : Daemon} {reply : Reply}

namespace System

variable {call : WriteCall} {s s' : System}

theorem inv_start (disk : Disk) : Inv call (start call disk) where
  place := ⟨[], 0, .unsent (.inl rfl) rfl rfl rfl (fun _ inside => nomatch inside) rfl,
    ⟨Nat.le_refl 0, rfl, (fun _ before => nomatch before), (fun _ _ inside => nomatch inside)⟩⟩
  reached := fun _ _ _ found => nomatch found
  flights := fun _ pending => nomatch pending
  told := trivial
  early := fun _ => rfl
  closes := fun _ inside => nomatch inside
  writes := fun _ inside => nomatch inside
  fresh := fun _ inside => nomatch inside
  session := Nat.le_refl 0
  owns := fun _ is => nomatch is
  current := fun _ is => nomatch is
  unsent := fun _ => rfl
  positive := fun _ is => nomatch is

/-! ### Around the call -/

/-- What happens around the call. -/
theorem Inv.beside (inv : Inv call s) {aborted up : Bool}
    (alike : Alike call s { s with daemon := d, disk, aborted, up })
    (output : d.output = s.daemon.output) (fresh : ∀ h ∈ Assoc.keys d.handles, h < d.nextHandle) :
    Inv call { s with daemon := d, disk, aborted, up } :=
  inv.unmoved alike ⟨rfl, output, rfl, rfl, rfl⟩ rfl fresh (Nat.le_refl _)
    fun session is => ⟨inv.positive session is, inv.current session is⟩

theorem inv_abort (inv : Inv call s) : Inv call { s with aborted := true } :=
  inv.beside ⟨rfl, rfl, rfl, rfl, rfl, id, fun _ _ is => is, fun _ _ is => .inl is,
    fun _ _ _ is _ _ => is⟩ rfl inv.fresh

theorem inv_stop (inv : Inv call s) : Inv call { s with up := false } :=
  inv.beside ⟨rfl, rfl, rfl, rfl, rfl, id, fun _ _ is => is, fun _ _ is => .inl is,
    fun _ _ _ is _ _ => is⟩ rfl inv.fresh

theorem inv_otherWrites (inv : Inv call s) (apart : path ≠ call.path) (bytes : List UInt8) :
    Inv call { s with disk := s.disk.put path bytes } :=
  inv.beside ⟨rfl, rfl, rfl, if_neg (Ne.symm apart), rfl, id, fun _ _ is => is,
    fun _ _ is => .inl is, fun _ _ _ is _ _ => is⟩ rfl inv.fresh

theorem inv_otherReads (inv : Inv call s) (opened : s.daemon.insert .other = some (new, d)) :
    Inv call { s with daemon := d } := by
  have handles {h o : Nat} (found : s.daemon.file h = some o) := Daemon.file_insert opened found
  have fresh := Daemon.fresh_insert opened inv.fresh
  obtain ⟨-, rfl⟩ := Daemon.insert_some opened
  exact inv.beside ⟨rfl, rfl, rfl, rfl, rfl, id, fun _ _ is => is, fun _ _ is => .inl is,
    fun _ _ _ is _ _ => handles is⟩ rfl fresh

theorem inv_otherOpens (inv : Inv call s) (opened : s.daemon.insertFile path = some (new, d)) :
    Inv call { s with daemon := d } := by
  have handles {h o : Nat} (found : s.daemon.file h = some o) : d.file h = some o :=
    Daemon.file_insert opened found
  have fresh := Daemon.fresh_insert opened inv.fresh
  obtain ⟨-, rfl⟩ := Daemon.insert_some opened
  refine inv.beside ⟨rfl, rfl, rfl, rfl, rfl, id, fun o file is => ?_, fun o file is => ?_,
    fun _ _ _ is _ _ => handles is⟩ rfl fresh
  · exact List.getElem?_append_left (List.getElem?_eq_some_iff.mp is).1 ▸ is
  · rcases Nat.lt_or_ge o s.daemon.files.length with before | after
    · rw [List.getElem?_append_left before] at is
      exact .inl is
    · rw [List.getElem?_append_right after] at is
      rw [List.mem_singleton.mp (mem_of_getElem? is)]
      exact .inr rfl

theorem inv_otherCloses (inv : Inv call s) {handle : Nat}
    (other : s.isOther call handle = true) : Inv call { s with
      daemon := { s.daemon with handles := Assoc.erase handle s.daemon.handles } } := by
  refine inv.beside ⟨rfl, rfl, rfl, rfl, rfl, id, fun _ _ is => is, fun _ _ is => .inl is,
    fun h o file found isFile path => ?_⟩ rfl
    fun h inside => inv.fresh h (Daemon.keys_erase_subset inside)
  refine Daemon.file_erase found ?_
  rintro rfl
  unfold isOther at other
  rw [found] at other
  simp [isFile, path] at other

theorem Inv.place_unsent (inv : Inv call s) (nothing : s.requests = []) :
    s.IsUnsent ∧ s.daemon.input = [] ∧ s.daemon.threads = [] ∧
      (∀ file ∈ s.daemon.files, file.jobs = []) ∧ s.disk call.path = s.before := by
  obtain ⟨ids, answered, place, line⟩ := inv.place
  have zero := congrArg List.length nothing
  cases place with
  | unsent phase _ input threads files untouched => exact ⟨phase, input, threads, files, untouched⟩
  | queued one => cases one.symm.trans zero
  | starting opening | opened opening => cases opening.one.symm.trans zero
  | kept kept => exact absurd nothing kept.something
  | quiet something => exact absurd nothing something

theorem inv_connect (inv : Inv call s) (ended : s.current = none) : Inv call s.connect := by
  have dead : s.live = false := by
    unfold live
    rw [ended]
    rfl
  have later : (some (s.sessions + 1) = some s.session) = False := by
    refine eq_false fun is => ?_
    have := inv.session
    have := Option.some.inj is
    omega
  have still : ({ s with sessions := s.sessions + 1, current := some (s.sessions + 1) } :
      System).live = s.live := by
    rw [dead]
    exact decide_eq_false (by rw [later]; exact id)
  have bounds : ∀ session, some (s.sessions + 1) = some session →
      0 < session ∧ session ≤ s.sessions + 1 := by
    intro session is
    rw [← Option.some.inj is]
    exact ⟨Nat.succ_pos _, Nat.le_refl _⟩
  unfold connect
  split
  · rename_i nothing
    -- Nothing was sent: the daemon is a new one.
    obtain ⟨phase, -, -, -, untouched⟩ := inv.place_unsent nothing
    refine ⟨⟨[], 0, .unsent phase nothing rfl rfl (fun _ inside => nomatch inside) untouched,
      ⟨Nat.zero_le _, ?_, (fun _ before => nomatch before), fun id _ inside => ?_⟩⟩,
      fun id sent reply found => ?_, fun id pending => ?_, ?_, inv.early, inv.closes, inv.writes,
      (fun _ inside => nomatch inside), ?_, inv.owns, fun session is => (bounds session is).2, inv.unsent,
      fun session is => (bounds session is).1⟩
    · rw [nothing]
      rfl
    · rw [nothing] at inside
      cases inside
    · rw [nothing] at found
      cases found
    · unfold promise at pending
      rw [nothing] at pending
      cases pending
    · exact told_of (fun covers => covers) (fun reached => reached) inv.told
    · exact inv.session.trans (Nat.le_succ _)
  · exact inv.unmoved ⟨rfl, rfl, rfl, rfl, rfl, fun is => still ▸ is, fun _ _ is => is,
      fun _ _ is => .inl is, fun _ _ _ is _ _ => is⟩ ⟨rfl, rfl, rfl, rfl, still⟩ rfl inv.fresh
      (Nat.le_succ _) bounds

theorem Alike.sent (alike : Alike call s s') {id : Nat} {sent : Sent}
    (found : s'.requests[id]? = some sent) :
    ∃ before, s.requests[id]? = some before ∧ before.closes = sent.closes := by
  have same := congrArg (fun kinds : List Bool => kinds[id]?) alike.kinds
  simp only [List.getElem?_map, found, Option.map_some] at same
  exact Option.map_eq_some_iff.mp same.symm

/-- What became of the promises, when nothing else of the call changed. -/
theorem inv_promises (inv : Inv call s) (alike : Alike call s s')
    (phase : s'.phase = s.phase) (session : s'.session = s.session)
    (writes : s'.writes = s.writes) (sessions : s'.sessions = s.sessions)
    (handles : s'.daemon.handles = s.daemon.handles)
    (nextHandle : s'.daemon.nextHandle = s.daemon.nextHandle)
    (current : s'.current = s.current ∨ s'.current = none)
    (gives : ∀ id reply, s'.Gives id reply ↔ s.Gives id reply)
    (pending : ∀ id, s'.promise id = .pending → s.promise id = .pending)
    (answered : ∀ id reply, s.promise id = .answered reply → s'.promise id = .answered reply)
    (line : ∀ ids answered, s.Line ids answered → ∃ answered', s'.Line ids answered') :
    Inv call s' where
  place := by
    obtain ⟨ids, answered, place, isLine⟩ := inv.place
    obtain ⟨answered', goesOn⟩ := line ids answered isLine
    refine ⟨ids, answered', alike.place place ?_ ?_ ?_ ?_, goesOn⟩
    · unfold IsUnsent
      rw [phase]
      exact fun is => is
    · unfold InFirst
      rw [phase]
      rintro - - (first | ⟨dead, settled⟩)
      · exact .inl first
      · refine .inr ⟨?_, settled⟩
        cases live : s'.live
        · rfl
        · rw [alike.live live] at dead
          cases dead
    · intro h _ link
      unfold KeptLink
      rw [phase, session, alike.count, gives]
      exact link
    · intro _ link
      unfold QuietLink
      rw [phase]
      exact ⟨link.1, fun id h first keep given => link.2 id h first keep ((gives _ _).mp given)⟩
  reached := by
    intro id sent reply found opens given good
    obtain ⟨before, isBefore, same⟩ := alike.sent found
    obtain ⟨pos, after, reached⟩ :=
      inv.reached id before reply isBefore (same.trans opens) ((gives _ _).mp given) good
    exact ⟨pos, after, alike.reached reached⟩
  flights := by
    intro id isPending
    rw [phase]
    exact inv.flights id (pending id isPending)
  told := by
    rw [phase]
    refine told_of (fun covers k before => ?_) alike.reached inv.told
    rcases covers k before with inFlight | refused | ⟨reply, is, good⟩
    · exact .inl inFlight
    · exact .inr (.inl refused)
    · exact .inr (.inr ⟨reply, answered k reply is, good⟩)
  early := by
    intro begun
    rw [phase] at begun
    refine eq_nil_of_length_eq_zero ?_
    rw [alike.count, inv.early begun]
    rfl
  closes := by
    intro sent inside isClose
    obtain ⟨id, found⟩ := mem_iff_getElem?.mp inside
    obtain ⟨before, isBefore, same⟩ := alike.sent found
    rw [phase]
    exact inv.closes before (mem_of_getElem? isBefore) (same.trans isClose)
  writes := by
    rw [writes]
    exact inv.writes
  fresh := by
    rw [handles, nextHandle]
    exact inv.fresh
  session := by
    rw [session, sessions]
    exact inv.session
  owns := by
    rw [phase, session]
    exact inv.owns
  current := by
    intro k is
    rw [sessions]
    rcases current with same | none
    · exact inv.current k (same ▸ is)
    · rw [none] at is
      cases is
  unsent := by
    intro nothing
    rw [session]
    refine inv.unsent (eq_nil_of_length_eq_zero ?_)
    rw [← alike.count, nothing]
    rfl
  positive := by
    intro k is
    rcases current with same | none
    · exact inv.positive k (same ▸ is)
    · rw [none] at is
      cases is

theorem promise_lt {id : Nat} (isnt : s.promise id ≠ .lost) : id < s.requests.length := by
  by_contra outside
  refine isnt ?_
  unfold promise
  rw [List.getElem?_eq_none (Nat.le_of_not_lt outside)]
  rfl

/-- **The connection is lost**: what is pending is rejected. -/
theorem inv_lose (inv : Inv call s) : Inv call s.lose := by
  have dead : s.lose.live = false := by
    unfold lose live
    exact decide_eq_false (fun is => nomatch is)
  cases live : s.live with
  | false =>
    have requests : s.lose.requests = s.requests := by
      unfold lose
      rw [live]
      rfl
    exact inv.unmoved ⟨congrArg (List.map Sent.closes) requests, rfl, rfl, rfl, rfl,
      fun is => (by rw [dead] at is; cases is), fun _ _ is => is, fun _ _ is => .inl is,
      fun _ _ _ is _ _ => is⟩ ⟨requests, rfl, rfl, rfl, dead.trans live.symm⟩ rfl inv.fresh
      (Nat.le_refl _) fun _ is => nomatch is
  | true =>
    have requests : s.lose.requests = s.requests.map fun sent =>
        if sent.promise = .pending then { sent with promise := .lost } else sent := by
      unfold lose
      rw [live]
      rfl
    have promise (id : Nat) : s.lose.promise id =
        if s.promise id = .pending then .lost else s.promise id := by
      unfold System.promise
      rw [requests, List.getElem?_map]
      cases s.requests[id]? with
      | none => rfl
      | some sent =>
        show (if sent.promise = .pending then _ else _ : Sent).promise = _
        split
        · rename_i pending
          exact (if_pos pending).symm
        · rename_i settled
          exact (if_neg settled).symm
    have answered (id : Nat) (reply : Reply) :
        s.lose.promise id = .answered reply ↔ s.promise id = .answered reply := by
      rw [promise]
      split
      · rename_i pending
        rw [pending]
        exact ⟨(fun is => nomatch is), (fun is => nomatch is)⟩
      · exact Iff.rfl
    have kinds : s.lose.requests.map Sent.closes = s.requests.map Sent.closes := by
      rw [requests, map_map]
      refine map_congr_left fun sent _ => ?_
      show (if sent.promise = .pending then _ else _ : Sent).closes = _
      split <;> rfl
    refine inv_promises inv ⟨kinds, rfl, rfl, rfl, rfl,
      fun is => (by rw [dead] at is; cases is), fun _ _ is => is, fun _ _ is => .inl is,
      fun _ _ _ is _ _ => is⟩ rfl rfl rfl rfl rfl rfl (.inr rfl) ?_ ?_ ?_ ?_
    · intro id reply
      unfold Gives
      rw [answered]
      exact Iff.rfl
    · intro id pending
      rw [promise] at pending
      split at pending
      · cases pending
      · exact pending
    · exact fun id reply is => (answered id reply).mpr is
    · intro ids n line
      refine ⟨n, ?_, ?_, ?_, ?_⟩
      · rw [requests, length_map]
        exact line.le
      · rw [requests, length_map]
        exact line.order
      · intro id before
        obtain ⟨reply, is⟩ := line.told id before
        exact ⟨reply, (answered id reply).mpr is⟩
      · intro id after inside
        rw [requests, length_map] at inside
        rw [promise, line.untold id after inside, live, dead]
        rfl

/-- The next reply is to the first request that was not answered. -/
theorem Line.next {ids : List Nat} {rest : List (Nat × Reply)} (line : s.Line ids answered)
    (next : s.daemon.output = (id, reply) :: rest) :
    id = answered ∧ id < s.requests.length ∧
      rest.map Prod.fst ++ ids = List.range' (id + 1) (s.requests.length - (id + 1)) := by
  have order := line.order
  rw [next] at order
  have some : s.requests.length - answered ≠ 0 := by
    intro none
    rw [none] at order
    cases order
  obtain ⟨left, isLeft⟩ := Nat.exists_eq_succ_of_ne_zero some
  rw [isLeft, List.range'_succ] at order
  obtain ⟨head, order⟩ := List.cons.inj order
  have isId : id = answered := head
  subst isId
  refine ⟨rfl, by omega, order.trans ?_⟩
  rw [show s.requests.length - (id + 1) = left by omega]

/-- **A reply arrives**: it is the next that was not given. -/
theorem inv_receive (inv : Inv call s) {rest : List (Nat × Reply)}
    (next : s.daemon.output = (id, reply) :: rest) (live : s.live = true) :
    Inv call ({ s with daemon := { s.daemon with output := rest } }.dispatch id reply) := by
  obtain ⟨ids, answered, place, line⟩ := inv.place
  obtain ⟨rfl, inside, order⟩ := line.next next
  have pending : s.promise id = .pending := by
    rw [line.untold id (Nat.le_refl _) inside, live]
    rfl
  obtain ⟨closes, found⟩ : ∃ closes, s.requests[id]? = Option.some ⟨closes, .pending⟩ := by
    unfold promise at pending
    rw [List.getElem?_eq_getElem inside] at pending ⊢
    refine ⟨s.requests[id].closes, congrArg Option.some ?_⟩
    rw [← show s.requests[id].promise = .pending from pending]
  have is : ({ s with daemon := { s.daemon with output := rest } } : System).dispatch id reply =
      { s with
        daemon := { s.daemon with output := rest }
        requests := s.requests.set id ⟨closes, .answered reply⟩ } := by
    unfold dispatch
    rw [show ({ s with daemon := { s.daemon with output := rest } } : System).requests[id]? = _ from
      found]
  rw [is]
  have promise (k : Nat) : System.promise { s with
      daemon := { s.daemon with output := rest }
      requests := s.requests.set id ⟨closes, .answered reply⟩ } k =
        if id = k then .answered reply else s.promise k := by
    unfold System.promise
    rw [List.getElem?_set]
    split
    · rfl
    · rfl
  have kinds : (s.requests.set id ⟨closes, .answered reply⟩).map Sent.closes =
      s.requests.map Sent.closes := by
    rw [map_set]
    refine ext_getElem? fun k => ?_
    rw [List.getElem?_set]
    split
    · rename_i same
      subst same
      have inside' : id < (s.requests.map Sent.closes).length := by rwa [length_map]
      rw [if_pos inside', List.getElem?_map, found]
      rfl
    · rfl
  refine inv_promises inv ⟨kinds, rfl, rfl, rfl, rfl, (fun is => is), fun _ _ is => is,
    fun _ _ is => .inl is, fun _ _ _ is _ _ => is⟩ rfl rfl rfl rfl rfl rfl (.inl rfl)
    ?_ ?_ ?_ ?_
  · intro k reply'
    unfold Gives
    rw [promise, next]
    split
    · rename_i same
      subst same
      rw [pending]
      constructor
      · rintro (same | later)
        · cases same
          exact .inr (mem_cons_self ..)
        · exact .inr (mem_cons_of_mem _ later)
      · rintro (none | head)
        · cases none
        · rcases List.mem_cons.mp head with same | later
          · cases same
            exact .inl rfl
          · exact .inr later
    · rename_i apart
      refine or_congr Iff.rfl ⟨fun later => mem_cons_of_mem _ later, fun head => ?_⟩
      rcases List.mem_cons.mp head with same | later
      · cases same
        exact absurd rfl apart
      · exact later
  · intro k isPending
    rw [promise] at isPending
    split at isPending
    · cases isPending
    · exact isPending
  · intro k reply' answered
    rw [promise]
    split
    · rename_i same
      subst same
      rw [pending] at answered
      cases answered
    · exact answered
  · intro ids n line
    obtain ⟨rfl, inside, order⟩ := line.next next
    refine ⟨id + 1, ?_, ?_, ?_, ?_⟩
    · rw [length_set]
      exact inside
    · rw [length_set]
      exact order
    · intro k before
      rw [promise]
      split
      · exact ⟨reply, rfl⟩
      · exact line.told k (by omega)
    · intro k after isIn
      rw [length_set] at isIn
      rw [promise, if_neg (by omega)]
      exact line.untold k (by omega) isIn

/-! ### The daemon -/

/-- **The daemon has done something**, and the client is where it was. -/
theorem Inv.worked (inv : Inv call s) (requests : s'.requests = s.requests)
    (phase : s'.phase = s.phase) (session : s'.session = s.session)
    (current : s'.current = s.current) (sessions : s'.sessions = s.sessions)
    (place : ∃ ids answered, s'.Where call ids ∧ s'.Line ids answered)
    (reached : ∀ id sent reply, s.requests[id]? = some sent → sent.closes = false →
      s'.Gives id reply → reply ≠ .error → ∃ pos, call.upto id ≤ pos ∧ s'.Reached call pos)
    (told : s'.Told call s.phase) (writes : ∀ w ∈ s'.writes, w ∈ s.writes ∨ w = (call.path, false))
    (fresh : ∀ handle ∈ Assoc.keys s'.daemon.handles, handle < s'.daemon.nextHandle) :
    Inv call s' := by
  refine ⟨place, ?_, ?_, ?_, ?_, ?_, ?_, fresh, ?_, ?_, ?_, ?_, ?_⟩
  · intro id sent reply found
    rw [requests] at found
    exact reached id sent reply found
  · intro id pending
    unfold promise at pending
    rw [requests] at pending
    rw [phase]
    exact inv.flights id pending
  · rw [phase]
    exact told
  · rw [phase, requests]
    exact inv.early
  · rw [phase, requests]
    exact inv.closes
  · intro w inside
    rcases writes w inside with before | is
    · exact inv.writes w before
    · exact is
  · rw [session, sessions]
    exact inv.session
  · rw [phase, session]
    exact inv.owns
  · rw [current, sessions]
    exact inv.current
  · rw [requests, session]
    exact inv.unsent
  · rw [current]
    exact inv.positive

/-- What the daemon does while the file grows. -/
theorem Inv.served (inv : Inv call s) (requests : s'.requests = s.requests)
    (phase : s'.phase = s.phase) (session : s'.session = s.session)
    (current : s'.current = s.current) (sessions : s'.sessions = s.sessions)
    (grows : ∀ pos, s.Reached call pos → ∃ pos', pos ≤ pos' ∧ s'.Reached call pos')
    (place : ∃ ids answered, s'.Where call ids ∧ s'.Line ids answered)
    (reached : ∀ id sent reply, s.requests[id]? = some sent → sent.closes = false →
      s'.Gives id reply → reply ≠ .error → s.Gives id reply ∨
        ∃ pos, call.upto id ≤ pos ∧ s'.Reached call pos)
    (writes : ∀ w ∈ s'.writes, w ∈ s.writes ∨ w = (call.path, false))
    (fresh : ∀ handle ∈ Assoc.keys s'.daemon.handles, handle < s'.daemon.nextHandle) :
    Inv call s' := by
  refine inv.worked requests phase session current sessions place
    (fun id sent reply found opens gives good => ?_) ?_ writes fresh
  · rcases reached id sent reply found opens gives good with before | now
    · obtain ⟨pos, after, here⟩ := inv.reached id sent reply found opens before good
      obtain ⟨pos', later, there⟩ := grows pos here
      exact ⟨pos', after.trans later, there⟩
    · exact now
  · refine told_of (fun covers k before => ?_) (fun whole => ?_) inv.told
    · unfold promise
      rw [requests]
      exact covers k before
    · obtain ⟨pos, after, there⟩ := grows _ whole
      rwa [Nat.le_antisymm there.1 after] at there

theorem Reached.stays (pos : Nat) (reached : s.Reached call pos) :
    ∃ pos', pos ≤ pos' ∧ s.Reached call pos' :=
  ⟨pos, Nat.le_refl _, reached⟩

/-- What the daemon does with a frame, or a thread, changes nothing else. -/
theorem Inv.passed (inv : Inv call s) {ids : List Nat} (line : s.Line ids answered)
    (place : System.Where call { s with daemon := d } ids) (output : d.output = s.daemon.output)
    (fresh : ∀ h ∈ Assoc.keys d.handles, h < d.nextHandle) : Inv call { s with daemon := d } := by
  refine inv.served rfl rfl rfl rfl rfl Reached.stays
    ⟨ids, answered, place, ⟨line.le, output ▸ line.order, line.told, line.untold⟩⟩
    (fun id sent reply _ _ gives _ => .inl ?_) (fun w inside => .inl inside) fresh
  unfold Gives at gives ⊢
  rwa [output] at gives

/-- **A chunk goes to the queue of its file**, which a thread drains. -/
theorem serve_chunk {d : Daemon} {h o : Nat} {file : FileHandle} {frame : Frame}
    {payload : List UInt8} (isChunk : frame.request = .writeChunk h payload)
    (handle : d.file h = some o) (found : d.files[o]? = some file) :
    d.serve frame = { d with
      files := d.files.set o { file with jobs := file.jobs ++ [frame], running := true }
      threads := if file.running then d.threads else d.threads ++ [.drain o none] } := by
  unfold Daemon.serve
  rw [isChunk]
  simp only [handle]
  unfold Daemon.runInOrder
  simp only [found]
  cases running : file.running with
  | true =>
    simp only [if_true, Daemon.setFile, ← running]
  | false =>
    simp only [Bool.false_eq_true, if_false, Daemon.setFile, Daemon.send]

theorem serve_respond (other : ∀ h payload, frame.request ≠ .writeChunk h payload) :
    d.serve frame = d.send (.respond frame.job) := by
  unfold Daemon.serve
  cases is : frame.request with
  | writeChunk h payload => exact absurd is (other h payload)
  | write path append keep payload => simp only [Frame.job, is]
  | close h => simp only [Frame.job, is]

theorem kept_read {job : Option Job} {rest : List Frame} {payload : List UInt8}
    (kept : s.Kept call h o file job) (next : s.daemon.input = frame :: rest)
    (isChunk : frame.request = .writeChunk h payload) :
    Kept call { s with daemon := ({ s.daemon with input := rest } : Daemon).serve frame }
      h o { file with jobs := file.jobs ++ [frame], running := true } job := by
  have served := @serve_chunk { s.daemon with input := rest } h o file frame payload isChunk
    kept.handle kept.open'
  have inside : o < s.daemon.files.length := (List.getElem?_eq_some_iff.mp kept.open').1
  rw [served]
  refine ⟨kept.something, ?_, kept.path, ?_, kept.handle, ?_, (fun is => nomatch is), ?_,
    kept.atWork, ?_, kept.link⟩
  · exact (List.getElem?_set_self inside)
  · intro o' other found apart
    refine kept.others o' other ?_ apart
    rwa [show (s.daemon.files.set o _)[o']? = _ from List.getElem?_set_ne (Ne.symm apart)] at found
  · show (if file.running then s.daemon.threads else s.daemon.threads ++ [.drain o none]) =
      [.drain o job]
    rw [kept.threads]
    cases running : file.running with
    | true => rfl
    | false =>
      rw [(kept.idle running).2]
      rfl
  · intro frame' isIn
    refine kept.frames frame' ?_
    rw [next]
    simpa using isIn
  · rcases kept.flow with ⟨failed, reached⟩ | ⟨sound, pos, reached, aligned⟩
    · exact .inl ⟨failed, reached⟩
    · refine .inr ⟨sound, pos, reached, ?_⟩
      unfold keptJobs at aligned ⊢
      rw [next] at aligned
      simpa using aligned

/-- **A frame is read.** -/
theorem inv_read (inv : Inv call s) {rest : List Frame} (next : s.daemon.input = frame :: rest) :
    Inv call { s with daemon := ({ s.daemon with input := rest } : Daemon).serve frame } := by
  obtain ⟨ids, answered, place, line⟩ := inv.place
  cases place with
  | unsent phase nothing input => rw [input] at next; cases next
  | queued one input threads files phase untouched =>
    rw [input] at next
    obtain ⟨rfl, rfl⟩ := List.cons.inj next
    have other : ∀ h payload, call.request ≠ .writeChunk h payload := by
      intro h payload is
      cases is
    rw [serve_respond other]
    refine inv.passed line (.starting ⟨one, rfl, files, phase⟩ ?_ untouched) rfl inv.fresh
    show s.daemon.threads ++ _ = _
    rw [threads]
    rfl
  | starting opening | opened opening => rw [opening.input] at next; cases next
  | @kept h o file job kept =>
    obtain ⟨payload, isChunk⟩ := kept.frames frame (by
      rw [next]
      exact mem_append_right _ (mem_cons_self ..))
    have goesOn := kept_read kept next isChunk
    have same : keptJobs { s with daemon := ({ s.daemon with input := rest } : Daemon).serve frame }
        job { file with jobs := file.jobs ++ [frame], running := true } = keptJobs s job file := by
      unfold keptJobs
      rw [@serve_chunk { s.daemon with input := rest } h o file frame payload isChunk kept.handle
        kept.open', next]
      simp
    have place := Where.kept goesOn
    rw [same] at place
    rw [@serve_chunk { s.daemon with input := rest } h o file frame payload isChunk kept.handle
      kept.open'] at place ⊢
    exact inv.passed line place rfl inv.fresh
  | quiet something reached input threads files few link =>
    obtain ⟨kind, h, isClose⟩ := input frame (by
      rw [next]
      exact mem_cons_self ..)
    rw [serve_respond fun h' payload is => by rw [isClose] at is; cases is]
    have moved : ((s.daemon.threads ++ [Thread.respond frame.job]).flatMap Thread.jobs ++
        rest.map Frame.job) = s.daemon.threads.flatMap Thread.jobs ++
          s.daemon.input.map Frame.job := by
      rw [next]
      simp [Thread.jobs]
    have goesOn : System.Where call { s with
        daemon := ({ s.daemon with input := rest } : Daemon).send (.respond frame.job) }
        (((s.daemon.threads ++ [Thread.respond frame.job]).flatMap Thread.jobs ++
          rest.map Frame.job).map Job.id) := by
      refine .quiet something reached (fun frame' isIn => ?_) (fun thread isIn => ?_) files ?_ link
      · refine input frame' ?_
        rw [next]
        exact mem_cons_of_mem _ isIn
      · rcases List.mem_append.mp isIn with before | new
        · exact threads thread before
        · rw [List.mem_singleton.mp new]
          refine .inr ⟨frame.id, h, kind, ?_⟩
          unfold Frame.job
          rw [isClose]
      · show ((s.daemon.threads ++ _).flatMap Thread.jobs ++ rest.map Frame.job).length ≤ 1
        rw [moved]
        exact few
    rw [moved] at goesOn
    exact inv.passed line goesOn rfl inv.fresh

/-! ### Threads -/

/-- The request that was at work has a reply. -/
theorem Line.replied {ids : List Nat} (line : s.Line (id :: ids) answered)
    (requests : s'.requests = s.requests) (live : s'.live = s.live)
    (output : s'.daemon.output = s.daemon.output ++ [(id, reply)]) : s'.Line ids answered := by
  refine ⟨?_, ?_, ?_, ?_⟩
  · rw [requests]
    exact line.le
  · rw [output, requests, ← line.order]
    simp
  · unfold promise
    rw [requests]
    exact line.told
  · unfold promise
    rw [requests, live]
    exact line.untold

theorem gives_replied {id' : Nat} {reply' : Reply} (given : s'.Gives id reply)
    (requests : s'.requests = s.requests)
    (output : s'.daemon.output = s.daemon.output ++ [(id', reply')]) :
    s.Gives id reply ∨ (id = id' ∧ reply = reply') := by
  rcases given with answered | inside
  · refine .inl (.inl ?_)
    unfold promise at answered ⊢
    rwa [requests] at answered
  · rw [output] at inside
    rcases List.mem_append.mp inside with before | new
    · exact .inl (.inr before)
    · exact .inr (Prod.mk.inj (List.mem_singleton.mp new))

/-- While the first request is at work, no request has a reply. -/
theorem Line.opening (line : s.Line [0] answered) (one : s.requests.length = 1) :
    s.daemon.output = [] ∧ ∀ id reply, ¬ s.Gives id reply := by
  have order := line.order
  rw [one] at order
  have le := line.le
  rw [one] at le
  have lengths := congrArg List.length order
  rw [length_append, length_range', length_singleton] at lengths
  have none : s.daemon.output = [] := by
    refine eq_nil_of_length_eq_zero ?_
    rw [length_map] at lengths
    omega
  refine ⟨none, fun id reply given => ?_⟩
  rcases given with answered' | inside
  · have inside := @promise_lt s id (by rw [answered']; exact fun is => nomatch is)
    rw [one] at inside
    have untold := line.untold id (by omega) (by omega)
    rw [answered'] at untold
    split at untold <;> cases untold
  · rw [none] at inside
    cases inside

theorem Opening.told (opening : s.Opening) : s'.Told call s.phase := by
  rcases opening.phase with first | ⟨-, settled⟩
  · rw [first]
    trivial
  · rw [settled]
    trivial

theorem Opening.isLate (opening : s.Opening) : s.isLate = false := by
  unfold System.isLate
  rcases opening.phase with first | ⟨dead, settled⟩
  · rw [first]
  · rw [settled]
    exact dead

/-- The first request has failed, or its file is not kept open. -/
theorem quiet_of_opening (opening : s.Opening) (line : s.Line [0] answered) (reply : Reply)
    (handles : reply = .error ∨ call.keep = false) (requests : s'.requests = s.requests)
    (phase : s'.phase = s.phase) (partial' : s'.Partial call) (input : s'.daemon.input = [])
    (threads : s'.daemon.threads = []) (files : ∀ file ∈ s'.daemon.files, file.jobs = [])
    (live : s'.live = s.live) (output : s'.daemon.output = s.daemon.output ++ [(0, reply)]) :
    ∃ ids answered, s'.Where call ids ∧ s'.Line ids answered := by
  obtain ⟨none, ungiven⟩ := line.opening opening.one
  have place : s'.Where call ((s'.daemon.threads.flatMap Thread.jobs ++
      s'.daemon.input.map Frame.job).map Job.id) := by
    refine .quiet ?_ partial' ?_ ?_ files ?_ fun isLive => ?_
    · intro is
      have one := opening.one
      rw [← requests, is] at one
      cases one
    · rw [input]
      exact fun _ inside => nomatch inside
    · rw [threads]
      exact fun _ inside => nomatch inside
    · rw [threads, input]
      exact Nat.zero_le _
    · rw [live] at isLive
      have first : s.phase = .first 0 := by
        rcases opening.phase with first | ⟨dead, -⟩
        · exact first
        · rw [dead] at isLive
          cases isLive
      refine ⟨?_, fun id h isFirst keep given => ?_⟩
      · rw [phase, first]
        rfl
      · rcases gives_replied given requests output with before | ⟨-, rfl⟩
        · exact ungiven id _ before
        · rcases handles with is | unkept
          · cases is
          · rw [unkept] at keep
            cases keep
  rw [threads, input] at place
  exact ⟨_, answered, place, line.replied requests live output⟩

theorem step_single {thread : Thread} (threads : d.threads = [thread])
    (is : d.step disk i choice = some stepped) : i = 0 ∧ d.step disk 0 choice = some stepped := by
  obtain ⟨_, found, -⟩ := Option.bind_eq_some_iff.mp is
  have inside := (List.getElem?_eq_some_iff.mp found).1
  rw [threads, length_singleton] at inside
  obtain rfl := Nat.lt_one_iff.mp inside
  exact ⟨rfl, is⟩

theorem step_respond (threads : d.threads = [.respond job])
    (is : d.step disk i choice = some stepped) :
    ∃ part, stepJob d disk job.state choice = some part ∧
      stepped = (part.resume 0 job.id .respond [], part.disk, part.wrote) := by
  obtain ⟨rfl, is⟩ := step_single threads is
  unfold Daemon.step at is
  rw [threads] at is
  obtain ⟨part, isPart, rfl⟩ := Option.map_eq_some_iff.mp is
  exact ⟨part, isPart, rfl⟩

/-- The state after a step of a thread. -/
def after (s : System) (stepped : Stepped) : System :=
  { s with
    daemon := stepped.1
    disk := stepped.2.1
    writes := s.writes ++ (stepped.2.2.map fun path => (path, s.isLate)).toList }

/-- **The first request is answered**, with an error or of a file that is not kept open. -/
theorem inv_firstAnswered (inv : Inv call s) (line : s.Line [0] answered) (opening : s.Opening)
    (threads : s.daemon.threads = [.respond job]) (reply : Reply)
    (handles : reply = .error ∨ call.keep = false) (content : s.Partial call)
    (reached : reply ≠ .error → ∃ pos, call.upto 0 ≤ pos ∧ s.Reached call pos) :
    Inv call (s.after (Part.resume ⟨s.daemon, s.disk, Option.none, .inr reply⟩ 0 0 .respond [],
      s.disk, Option.none)) := by
  obtain ⟨none, ungiven⟩ := line.opening opening.one
  refine inv.worked rfl rfl rfl rfl rfl (quiet_of_opening opening line reply handles rfl rfl
    content opening.input ?_ opening.files rfl rfl) ?_ opening.told ?_ inv.fresh
  · show s.daemon.threads.take 0 ++ [] ++ s.daemon.threads.drop (0 + 1) = []
    rw [threads]
    rfl
  · intro id sent reply' _ _ given good
    rcases gives_replied (s := s) given rfl rfl with before | ⟨rfl, rfl⟩
    · exact absurd before (ungiven id reply')
    · exact reached good
  · exact fun w inside => .inl (by simpa [after] using inside)

/-- **The first request opens the file**, or fails. -/
theorem inv_starting (inv : Inv call s) (line : s.Line [0] answered) (opening : s.Opening)
    (threads : s.daemon.threads = [.respond ⟨0, .start call.request⟩])
    (untouched : s.disk call.path = s.before) (is : s.daemon.step s.disk i choice = some stepped) :
    Inv call (s.after stepped) := by
  obtain ⟨part, isPart, rfl⟩ := step_respond threads is
  obtain ⟨none, ungiven⟩ := line.opening opening.one
  cases choice with
  | go =>
    cases isPart
    have reached : Reached call (s.after (s.daemon, s.disk.put call.path
        (if call.append then s.disk call.path else []), Option.none)) 0 := by
      refine ⟨Nat.zero_le _, ?_⟩
      show (if call.path = call.path then _ else _) = _
      rw [if_pos rfl, take_zero, append_nil, untouched]
      rfl
    refine inv.worked rfl rfl rfl rfl rfl ⟨[0], answered, .opened ⟨opening.one, opening.input,
        opening.files, opening.phase⟩ 0 ?_ (Nat.zero_le _) reached,
        ⟨line.le, line.order, line.told, line.untold⟩⟩ ?_ opening.told ?_ inv.fresh
    · show s.daemon.threads.set 0 _ = _
      rw [threads]
      rfl
    · exact fun id sent reply _ _ given => absurd given (ungiven id reply)
    · exact fun w inside => .inl (by simpa [after] using inside)
  | fail =>
    cases isPart
    exact inv_firstAnswered inv line opening threads .error (.inl rfl) (.inl untouched)
      fun good => absurd rfl good
  | some count => cases isPart

/-- More of the content is written. -/
theorem reached_more {pos count : Nat} (reached : s.Reached call pos)
    (more : pos + count ≤ call.bytes.length)
    (is : disk call.path = s.disk call.path ++ (call.bytes.drop pos).take count) :
    Reached call { s with disk } (pos + count) := by
  refine ⟨more, ?_⟩
  show disk call.path = s.base call ++ _
  rw [is, reached.2, append_assoc, ← take_add]

theorem first_drop (call : WriteCall) (pos : Nat) :
    call.first.drop pos = (call.bytes.drop pos).take (call.upto 0 - pos) := by
  unfold WriteCall.first WriteCall.upto
  rw [drop_take, take_eq_take_iff, length_drop]
  omega

theorem length_first (call : WriteCall) : call.first.length = call.upto 0 := by
  unfold WriteCall.first WriteCall.upto
  rw [length_take]
  omega

/-- **The first request writes**, fails or is done. -/
theorem inv_opened (inv : Inv call s) (line : s.Line [0] answered) (opening : s.Opening)
    {pos : Nat}
    (threads : s.daemon.threads = [.respond ⟨0, .write call.path call.keep (call.first.drop pos)⟩])
    (within : pos ≤ call.first.length) (reached : s.Reached call pos)
    (is : s.daemon.step s.disk i choice = some stepped) : Inv call (s.after stepped) := by
  obtain ⟨part, isPart, rfl⟩ := step_respond threads is
  obtain ⟨none, ungiven⟩ := line.opening opening.one
  cases choice with
  | some count =>
    obtain ⟨⟨positive, fits⟩, isPart⟩ := Option.ite_none_right_eq_some.mp isPart
    cases isPart
    rw [length_drop] at fits
    have most := reached.1
    have more : Reached call (s.after (s.daemon, s.disk.put call.path (s.disk call.path ++
        (call.first.drop pos).take count), Option.none)) (pos + count) := by
      refine reached_more reached ?_ ?_
      · rw [length_first] at fits within
        unfold WriteCall.upto at fits within
        omega
      · show (if call.path = call.path then _ else _) = _
        rw [if_pos rfl, first_drop, take_take, Nat.min_eq_left (by
          rw [← length_first]
          exact fits)]
    refine inv.worked rfl rfl rfl rfl rfl ⟨[0], answered, .opened
        ⟨opening.one, opening.input, opening.files, opening.phase⟩ (pos + count) ?_ ?_ more,
        ⟨line.le, line.order, line.told, line.untold⟩⟩ ?_ opening.told ?_ inv.fresh
    · show s.daemon.threads.set 0 _ = _
      rw [threads, drop_drop]
      rfl
    · omega
    · exact fun id sent reply _ _ given => absurd given (ungiven id reply)
    · intro w inside
      rcases List.mem_append.mp inside with before | new
      · exact .inl before
      · rw [List.mem_singleton.mp new, opening.isLate]
        exact .inr rfl
  | fail =>
    cases rest : call.first.drop pos with
    | nil =>
      rw [rest] at isPart
      cases isPart
    | cons byte bytes =>
      rw [rest] at isPart
      cases isPart
      exact inv_firstAnswered inv line opening threads .error (.inl rfl) (.inr ⟨pos, reached⟩)
        fun good => absurd rfl good
  | go =>
    cases rest : call.first.drop pos with
    | cons byte bytes =>
      rw [rest] at isPart
      cases keep : call.keep <;> rw [keep] at isPart <;> cases isPart
    | nil =>
      have all : pos = call.upto 0 := by
        have short := congrArg List.length rest
        rw [length_drop, length_nil] at short
        rw [← length_first]
        omega
      rw [rest] at isPart
      cases keep : call.keep with
      | false =>
        rw [keep] at isPart
        cases isPart
        exact inv_firstAnswered inv line opening threads .done (.inr keep) (.inr ⟨pos, reached⟩)
          fun _ => ⟨pos, Nat.le_of_eq all.symm, reached⟩
      | true =>
        rw [keep] at isPart
        cases inserted : s.daemon.insertFile call.path with
        | none =>
          simp only [stepJob, inserted] at isPart
          cases isPart
          exact inv_firstAnswered inv line opening threads .error (.inl rfl) (.inr ⟨pos, reached⟩)
            fun good => absurd rfl good
        | some opened =>
          obtain ⟨new, d⟩ := opened
          simp only [stepJob, inserted] at isPart
          cases isPart
          have fresh := Daemon.fresh_insert inserted inv.fresh
          obtain ⟨isDaemon, handle⟩ := Daemon.insertFile_some inserted inv.fresh
          have output : d.output = s.daemon.output := by rw [isDaemon]
          have ended : d.threads.take 0 ++ [] ++ d.threads.drop (0 + 1) = [] := by
            rw [isDaemon]
            show s.daemon.threads.take 0 ++ [] ++ s.daemon.threads.drop (0 + 1) = []
            rw [threads]
            rfl
          have input : d.input = [] := by rw [isDaemon, ← opening.input]
          have nothing : keptJobs (s.after (Part.resume ⟨d, s.disk, Option.none,
              .inr (.opened new)⟩ 0 0 .respond [], s.disk, Option.none)) Option.none
              ⟨call.path, false, [], false⟩ = [] := by
            show [] ++ ([] ++ d.input).map Frame.job = []
            rw [input]
            rfl
          have kept : Kept call (s.after (Part.resume ⟨d, s.disk, Option.none, .inr (.opened new)⟩ 0 0
              .respond [], s.disk, Option.none)) new s.daemon.files.length
              ⟨call.path, false, [], false⟩ Option.none := by
            have files : d.files = s.daemon.files ++ [⟨call.path, false, [], false⟩] := by
              rw [isDaemon]
            refine ⟨?_, ?_, rfl, ?_, handle, ended, fun _ => ⟨rfl, rfl⟩, ?_, (fun _ is => nomatch is),
              .inr ⟨rfl, pos, reached, ?_⟩, fun live => .inl ⟨?_, opening.one, ?_, keep⟩⟩
            · intro is
              have one := opening.one
              rw [show s.requests = [] from is] at one
              cases one
            · show d.files[s.daemon.files.length]? = _
              rw [files]
              exact List.getElem?_concat_length
            · intro o' other found apart
              have isOther : (s.daemon.files ++ [⟨call.path, false, [], false⟩])[o']? =
                  Option.some other := files ▸ found
              rw [List.getElem?_append_left (by
                have inside := (List.getElem?_eq_some_iff.mp isOther).1
                rw [length_append, length_singleton] at inside
                omega)] at isOther
              exact opening.files other (mem_of_getElem? isOther)
            · show ∀ frame ∈ [] ++ d.input, _
              rw [input]
              exact fun _ inside => nomatch inside
            · rw [nothing]
              show pos = min (s.requests.length * WRITE_CHUNK) _
              rw [opening.one, all]
              rfl
            · rcases opening.phase with first | ⟨dead, -⟩
              · exact first
              · rw [show s.live = true from live] at dead
                cases dead
            · exact .inr (mem_append_right _ (mem_singleton_self _))
          have place := Where.kept kept
          rw [nothing] at place
          have outputs : d.output ++ [(0, Reply.opened new)] =
              s.daemon.output ++ [(0, Reply.opened new)] := by rw [output]
          refine inv.worked rfl rfl rfl rfl rfl ⟨[], answered, place, line.replied rfl rfl outputs⟩
            ?_ opening.told ?_ fresh
          · intro id sent reply _ _ given good
            rcases gives_replied (s := s) given rfl outputs with before | ⟨rfl, -⟩
            · exact absurd before (ungiven id reply)
            · exact ⟨pos, Nat.le_of_eq all.symm, reached⟩
          · exact fun w inside => .inl (by simpa [after] using inside)

theorem Kept.isLate (kept : s.Kept call h o file current) : s.isLate = false := by
  unfold System.isLate
  cases live : s.live with
  | false => split <;> rfl
  | true =>
    rcases kept.link live with ⟨first, -⟩ | ⟨writing, -⟩
    · rw [first]
    · split
      · rename_i settled
        rw [settled] at writing
        cases writing
      · rfl

theorem Kept.drains (kept : s.Kept call h o file current) (running : file.running = true) :
    s.daemon.threads = [.drain o current] := by
  rw [kept.threads, running]
  rfl

/-- **The thread of the kept file has taken a step.** -/
theorem Kept.worked (inv : Inv call s) (kept : s.Kept call h o file current) (file' : FileHandle)
    (current' : Option Job) (files : stepped.1.files = s.daemon.files.set o file')
    (path : file'.path = file.path) (handles : stepped.1.handles = s.daemon.handles)
    (nextHandle : stepped.1.nextHandle = s.daemon.nextHandle)
    (input : stepped.1.input = s.daemon.input)
    (threads : stepped.1.threads = if file'.running then [.drain o current'] else [])
    (idle : file'.running = false → file'.jobs = [] ∧ current' = none)
    (jobs : ∀ frame ∈ file'.jobs, frame ∈ file.jobs)
    (atWork : ∀ job, current' = some job → (∃ payload, job.state = .start (.writeChunk h payload)) ∨
      (file'.failed = false ∧ ∃ rest, job.state = .chunk o rest))
    (flow : (file'.failed = true ∧ (s.after stepped).Partial call) ∨ (file'.failed = false ∧
      ∃ pos, (s.after stepped).Reached call pos ∧
        Aligned call s.requests.length pos (keptJobs s current' file')))
    (output : ∀ reply ∈ s.daemon.output, reply ∈ stepped.1.output)
    (line : ∃ answered, (s.after stepped).Line ((keptJobs s current' file').map Job.id) answered)
    (grows : ∀ pos, s.Reached call pos → ∃ pos', pos ≤ pos' ∧ (s.after stepped).Reached call pos')
    (reached : ∀ id sent reply, s.requests[id]? = some sent → sent.closes = false →
      (s.after stepped).Gives id reply → reply ≠ .error → s.Gives id reply ∨
        ∃ pos, call.upto id ≤ pos ∧ (s.after stepped).Reached call pos)
    (wrote : ∀ path, stepped.2.2 = some path → path = call.path) : Inv call (s.after stepped) := by
  have same : keptJobs (s.after stepped) current' file' = keptJobs s current' file' := by
    unfold keptJobs
    rw [show (s.after stepped).daemon.input = _ from input]
  have goesOn : (s.after stepped).Kept call h o file' current' := by
    refine ⟨kept.something, ?_, path.trans kept.path, ?_, ?_, threads, idle, ?_, atWork, ?_, ?_⟩
    · show stepped.1.files[o]? = some file'
      rw [files]
      exact List.getElem?_set_self (List.getElem?_eq_some_iff.mp kept.open').1
    · intro o' other found apart
      have isOther : (s.daemon.files.set o file')[o']? = some other := files ▸ found
      rw [List.getElem?_set_ne (Ne.symm apart)] at isOther
      exact kept.others o' other isOther apart
    · have handle := kept.handle
      unfold Daemon.file at handle ⊢
      rw [show (s.after stepped).daemon.handles = _ from handles]
      exact handle
    · intro frame inside
      refine kept.frames frame ?_
      rw [show (s.after stepped).daemon.input = _ from input] at inside
      rcases List.mem_append.mp inside with queued | unread
      · exact mem_append_left _ (jobs frame queued)
      · exact mem_append_right _ unread
    · rw [same]
      exact flow
    · intro live
      rcases kept.link live with ⟨first, one, given, keep⟩ | writing
      · refine .inl ⟨first, one, ?_, keep⟩
        rcases given with answered | inside
        · exact .inl answered
        · exact .inr (output _ inside)
      · exact .inr writing
  have place := Where.kept goesOn
  rw [same] at place
  obtain ⟨answered, line⟩ := line
  refine inv.served rfl rfl rfl rfl rfl grows ⟨_, answered, place, line⟩ reached ?_ ?_
  · intro w inside
    rcases List.mem_append.mp inside with before | new
    · exact .inl before
    · obtain ⟨path, isPath, rfl⟩ := Option.map_eq_some_iff.mp (Option.mem_toList.mp new)
      rw [wrote path isPath, kept.isLate]
      exact .inr rfl
  · rw [show (s.after stepped).daemon.handles = _ from handles,
      show (s.after stepped).daemon.nextHandle = _ from nextHandle]
    exact inv.fresh

theorem set_self {files : List FileHandle} (found : files[o]? = some file) :
    files.set o file = files := by
  obtain ⟨inside, rfl⟩ := List.getElem?_eq_some_iff.mp found
  exact set_getElem_self inside

/-- A thread that has nothing at work takes the next of its queue, or ends. -/
theorem inv_idle (inv : Inv call s) (kept : s.Kept call h o file none)
    (running : file.running = true) (line : s.Line ((keptJobs s none file).map Job.id) answered)
    (is : s.daemon.step s.disk 0 choice = some stepped) : Inv call (s.after stepped) := by
  unfold Daemon.step at is
  rw [kept.drains running] at is
  obtain ⟨_, found, is⟩ := Option.map_eq_some_iff.mp is
  cases kept.open'.symm.trans found
  cases queue : file.jobs with
  | nil =>
    simp only [queue] at is
    cases is
    have same : keptJobs s none { file with jobs := [], running := false } =
        keptJobs s none file := by
      unfold keptJobs
      rw [queue]
    refine Kept.worked inv kept { file with jobs := [], running := false } none rfl rfl rfl rfl rfl
      rfl (fun _ => ⟨rfl, rfl⟩) (fun _ inside => nomatch inside) (fun _ is => nomatch is) ?_
      (fun _ inside => inside) ?_ Reached.stays
      (fun _ _ _ _ _ gives _ => .inl gives) (fun _ is => nomatch is)
    · rw [same]
      exact kept.flow
    · rw [same]
      exact ⟨answered, line.le, line.order, line.told, line.untold⟩
  | cons frame jobs =>
    simp only [queue] at is
    cases is
    have same : keptJobs s (some frame.job) { file with jobs } = keptJobs s none file := by
      unfold keptJobs
      rw [queue]
      rfl
    refine Kept.worked inv kept { file with jobs } (some frame.job) rfl rfl rfl rfl rfl ?_ ?_ ?_ ?_
      ?_ (fun _ inside => inside) ?_ Reached.stays
      (fun _ _ _ _ _ gives _ => .inl gives) (fun _ is => nomatch is)
    · rw [running]
      rfl
    · intro stopped
      rw [show file.running = false from stopped] at running
      cases running
    · intro frame' inside
      rw [queue]
      exact mem_cons_of_mem _ inside
    · intro job is
      cases is
      obtain ⟨payload, isChunk⟩ := kept.frames frame (by
        rw [queue]
        exact mem_append_left _ (mem_cons_self ..))
      exact .inl ⟨payload, congrArg JobState.start isChunk⟩
    · rw [same]
      exact kept.flow
    · rw [same]
      exact ⟨answered, line.le, line.order, line.told, line.untold⟩

theorem step_drain (threads : d.threads = [.drain o (some job)])
    (is : d.step disk 0 choice = some stepped) :
    ∃ part, stepJob d disk job.state choice = some part ∧
      stepped = (part.resume 0 job.id (fun job => .drain o (some job)) [.drain o none], part.disk,
        part.wrote) := by
  unfold Daemon.step at is
  rw [threads] at is
  obtain ⟨part, isPart, rfl⟩ := Option.map_eq_some_iff.mp is
  exact ⟨part, isPart, rfl⟩

/-- A chunk has a reply: an error on a file that has failed, or a success that tells how far the file
is. -/
theorem Kept.answers (inv : Inv call s) (kept : s.Kept call h o file (some job))
    (running : file.running = true)
    (line : s.Line ((keptJobs s (some job) file).map Job.id) answered) (file' : FileHandle)
    (path : file'.path = file.path) (jobs : file'.jobs = file.jobs)
    (stillRunning : file'.running = true) (reply : Reply)
    (flow : (file'.failed = true ∧ reply = .error ∧ s.Partial call) ∨ (file'.failed = false ∧
      s.Reached call (call.upto job.id) ∧
        Aligned call s.requests.length (call.upto job.id) (keptJobs s none file))) :
    Inv call (s.after (Part.resume ⟨s.daemon.setFile o file', s.disk, none, .inr reply⟩ 0 job.id
      (fun job => .drain o (some job)) [.drain o none], s.disk, none)) := by
  have same : keptJobs s none file' = keptJobs s none file := by
    unfold keptJobs
    rw [jobs]
  refine Kept.worked inv kept file' none rfl path rfl rfl rfl ?_ ?_ ?_ (fun _ is => nomatch is)
    ?_ (fun _ inside => mem_append_left _ inside) ⟨answered, ?_⟩
    Reached.stays ?_ (fun _ is => nomatch is)
  · show s.daemon.threads.take 0 ++ [.drain o none] ++ s.daemon.threads.drop (0 + 1) = _
    rw [kept.drains running, stillRunning]
    rfl
  · intro stopped
    rw [stillRunning] at stopped
    cases stopped
  · rw [jobs]
    exact fun _ inside => inside
  · rcases flow with ⟨failed, -, reached⟩ | ⟨sound, reached, aligned⟩
    · exact .inl ⟨failed, reached⟩
    · refine .inr ⟨sound, call.upto job.id, reached, ?_⟩
      rw [same]
      exact aligned
  · rw [same]
    exact line.replied rfl rfl rfl
  · intro id sent reply' _ _ given good
    rcases gives_replied (s := s) given rfl rfl with before | ⟨rfl, rfl⟩
    · exact .inl before
    · rcases flow with ⟨-, failed, -⟩ | ⟨-, reached, -⟩
      · exact absurd failed good
      · exact .inr ⟨_, Nat.le_refl _, reached⟩

theorem Reached.eq {pos pos' : Nat} (reached : s.Reached call pos) (again : s.Reached call pos') :
    pos = pos' := by
  have same := congrArg List.length (append_cancel_left (reached.2.symm.trans again.2))
  have within := reached.1
  have within' := again.1
  rw [length_take, length_take] at same
  omega

/-- A chunk goes on, some of it written. -/
theorem Kept.goesOn (inv : Inv call s) {pos : Nat} (kept : s.Kept call h o file (some job))
    (running : file.running = true)
    (line : s.Line ((keptJobs s (some job) file).map Job.id) answered)
    (sound : file.failed = false) (rest : List UInt8) {wrote : Option Text}
    (isWrote : ∀ path, wrote = some path → path = call.path)
    (reached : Reached call { s with disk } pos) (before : pos ≤ call.upto job.id)
    (isRest : rest = (call.bytes.drop pos).take (call.upto job.id - pos))
    (aligned : Aligned call s.requests.length (call.upto job.id) (keptJobs s none file))
    (grows : ∀ pos, s.Reached call pos → ∃ pos', pos ≤ pos' ∧ Reached call { s with disk } pos') :
    Inv call (s.after (Part.resume ⟨s.daemon, disk, wrote, .inl (.chunk o rest)⟩ 0 job.id
      (fun job => .drain o (some job)) [.drain o none], disk, wrote)) := by
  refine Kept.worked inv kept file (some ⟨job.id, .chunk o rest⟩) (set_self kept.open').symm rfl rfl
    rfl rfl ?_ ?_ (fun _ inside => inside) ?_ (.inr ⟨sound, pos, reached, before, isRest, aligned⟩)
    (fun _ inside => inside) ⟨answered, line.le, line.order, line.told, line.untold⟩ grows
    (fun _ _ _ _ _ gives _ => .inl gives) isWrote
  · show s.daemon.threads.set 0 _ = _
    rw [kept.drains running, running]
    rfl
  · intro stopped
    rw [running] at stopped
    cases stopped
  · intro job is
    cases is
    exact .inr ⟨sound, rest, rfl⟩

/-- **The chunk at work** is looked up, written, fails, or is done. -/
theorem inv_atWork (inv : Inv call s) (kept : s.Kept call h o file (some job))
    (running : file.running = true)
    (line : s.Line ((keptJobs s (some job) file).map Job.id) answered)
    (is : s.daemon.step s.disk 0 choice = some stepped) : Inv call (s.after stepped) := by
  have setSelf : s.daemon.setFile o file = s.daemon := by
    unfold Daemon.setFile
    rw [set_self kept.open']
  obtain ⟨part, isPart, rfl⟩ := step_drain (kept.drains running) is
  rcases kept.atWork job rfl with ⟨payload, state⟩ | ⟨sound, rest, state⟩
  · rw [state] at isPart
    cases choice with
    | go =>
      simp only [stepJob, kept.handle, kept.open', Option.any_some] at isPart
      rcases kept.flow with ⟨failed, reached⟩ | ⟨sound, pos, reached, before, isRest, aligned⟩
      · rw [if_pos failed] at isPart
        cases isPart
        have goesOn := Kept.answers inv kept running line file rfl rfl running .error
          (.inl ⟨failed, rfl, reached⟩)
        rw [setSelf] at goesOn
        exact goesOn
      · rw [sound] at isPart
        cases isPart
        rw [state] at isRest
        exact Kept.goesOn inv kept running line sound payload (fun _ is => nomatch is) reached before
          isRest aligned Reached.stays
    | fail => cases isPart
    | some count => cases isPart
  · obtain ⟨pos, reached, before, isRest, aligned⟩ : ∃ pos, s.Reached call pos ∧
        pos ≤ call.upto job.id ∧ rest = (call.bytes.drop pos).take (call.upto job.id - pos) ∧
        Aligned call s.requests.length (call.upto job.id) (keptJobs s none file) := by
      rcases kept.flow with ⟨failed, -⟩ | ⟨-, pos, reached, before, isRest, aligned⟩
      · rw [sound] at failed
        cases failed
      · rw [state] at isRest
        exact ⟨pos, reached, before, isRest, aligned⟩
    have length : rest.length = call.upto job.id - pos := by
      rw [isRest, length_take, length_drop]
      unfold WriteCall.upto
      omega
    rw [state] at isPart
    cases choice with
    | some count =>
      simp only [stepJob, kept.open', Option.bind_some] at isPart
      obtain ⟨⟨positive, fits⟩, isPart⟩ := Option.ite_none_right_eq_some.mp isPart
      cases isPart
      have within : pos + count ≤ call.bytes.length := by
        rw [length] at fits
        unfold WriteCall.upto at fits
        omega
      have more : Reached call { s with disk := s.disk.put file.path (s.disk file.path ++
          rest.take count) } (pos + count) := by
        refine reached_more reached within ?_
        show (if call.path = file.path then _ else _) = _
        rw [if_pos kept.path.symm, kept.path, isRest, take_take, Nat.min_eq_left]
        rwa [← length]
      refine Kept.goesOn inv kept running line sound (rest.drop count) ?_ more (by omega) ?_ aligned
        fun pos' again => ⟨pos + count, ?_, more⟩
      · intro path isPath
        cases isPath
        exact kept.path
      · rw [isRest, drop_take, drop_drop, Nat.sub_sub]
      · rw [Reached.eq again reached]
        exact Nat.le_add_right ..
    | fail =>
      cases rest with
      | nil => cases isPart
      | cons byte bytes =>
        simp only [stepJob, kept.open', Option.map_some] at isPart
        cases isPart
        exact Kept.answers inv kept running line { file with failed := true } rfl rfl running .error
          (.inl ⟨rfl, rfl, .inr ⟨pos, reached⟩⟩)
    | go =>
      cases rest with
      | cons byte bytes => cases isPart
      | nil =>
        cases isPart
        have done : pos = call.upto job.id := by
          rw [length_nil] at length
          omega
        have goesOn := Kept.answers inv kept running line file rfl rfl running .done
          (.inr ⟨sound, done ▸ reached, aligned⟩)
        rw [setSelf] at goesOn
        exact goesOn

/-- **What is left when nothing is written**: threads that end, and the `close`. -/
theorem inv_quiet (inv : Inv call s) (something : s.requests ≠ []) (reached : s.Partial call)
    (input : ∀ frame ∈ s.daemon.input, s.IsClose frame.id ∧ ∃ h, frame.request = .close h)
    (threads : ∀ thread ∈ s.daemon.threads, (∃ o, thread = .drain o none) ∨
      ∃ id h, s.IsClose id ∧ thread = .respond ⟨id, .start (.close h)⟩)
    (files : ∀ file ∈ s.daemon.files, file.jobs = [])
    (few : (s.daemon.threads.flatMap Thread.jobs ++ s.daemon.input.map Frame.job).length ≤ 1)
    (link : s.live = true → s.QuietLink call)
    (line : s.Line ((s.daemon.threads.flatMap Thread.jobs ++ s.daemon.input.map Frame.job).map Job.id)
      answered)
    (is : s.daemon.step s.disk i choice = some stepped) : Inv call (s.after stepped) := by
  obtain ⟨thread, found, is⟩ := Option.bind_eq_some_iff.mp is
  have split : s.daemon.threads =
      s.daemon.threads.take i ++ thread :: s.daemon.threads.drop (i + 1) := by
    obtain ⟨inside, rfl⟩ := List.getElem?_eq_some_iff.mp found
    rw [← drop_eq_getElem_cons inside, take_append_drop]
  have fewer : ∀ other ∈ s.daemon.threads.take i ++ s.daemon.threads.drop (i + 1),
      other ∈ s.daemon.threads := by
    intro other inside
    rw [split]
    rcases List.mem_append.mp inside with before | after
    · exact mem_append_left _ before
    · exact mem_append_right _ (mem_cons_of_mem _ after)
  rcases threads thread (mem_of_getElem? found) with ⟨o, rfl⟩ | ⟨id, h, kind, rfl⟩
  · obtain ⟨file, isFile, is⟩ := Option.map_eq_some_iff.mp is
    have empty := files file (mem_of_getElem? isFile)
    simp only [empty] at is
    cases is
    have same : (s.daemon.threads.take i ++ s.daemon.threads.drop (i + 1)).flatMap Thread.jobs =
        s.daemon.threads.flatMap Thread.jobs := by
      conv_rhs => rw [split]
      simp [Thread.jobs]
    have goesOn : System.Where call (s.after ({ s.daemon.setFile o { file with jobs := [], running := false } with
        threads := s.daemon.threads.take i ++ s.daemon.threads.drop (i + 1) }, s.disk, none))
        (((s.daemon.threads.take i ++ s.daemon.threads.drop (i + 1)).flatMap Thread.jobs ++
          s.daemon.input.map Frame.job).map Job.id) := by
      refine .quiet something reached input (fun other inside => threads other (fewer other inside))
        (fun other inside => ?_) ?_ link
      · rcases mem_or_eq_of_mem_set inside with before | rfl
        · exact files other before
        · rfl
      · show ((s.daemon.threads.take i ++ s.daemon.threads.drop (i + 1)).flatMap Thread.jobs ++
          s.daemon.input.map Frame.job).length ≤ 1
        rw [same]
        exact few
    rw [same] at goesOn
    refine inv.served rfl rfl rfl rfl rfl Reached.stays
      ⟨_, answered, goesOn, ⟨line.le, line.order, line.told, line.untold⟩⟩
      (fun id sent reply _ _ gives _ => .inl gives) (fun w inside => .inl ?_) inv.fresh
    simpa [after] using inside
  · obtain ⟨part, isPart, rfl⟩ := Option.map_eq_some_iff.mp is
    -- It is the only request that is left.
    have before : (s.daemon.threads.take i).flatMap Thread.jobs = [] ∧
        (s.daemon.threads.drop (i + 1)).flatMap Thread.jobs ++ s.daemon.input.map Frame.job = [] := by
      rw [split] at few
      simp only [flatMap_append, flatMap_cons, Thread.jobs, length_append,
        length_singleton] at few
      exact ⟨eq_nil_of_length_eq_zero (by omega), eq_nil_of_length_eq_zero (by
        rw [length_append]
        omega)⟩
    cases choice with
    | go =>
      cases isPart
      have ids : (s.daemon.threads.flatMap Thread.jobs ++ s.daemon.input.map Frame.job) =
          [⟨id, .start (.close h)⟩] := by
        rw [split, flatMap_append, flatMap_cons, before.1, nil_append,
          append_assoc, before.2]
        rfl
      have nothing : (s.daemon.threads.take i ++ s.daemon.threads.drop (i + 1)).flatMap Thread.jobs ++
          s.daemon.input.map Frame.job = [] := by
        rw [flatMap_append, before.1, nil_append, before.2]
      rw [ids] at line
      have place : System.Where call (s.after (Part.resume ⟨{ s.daemon with
          handles := Assoc.erase h s.daemon.handles }, s.disk, none, .inr .done⟩ i id .respond [],
          s.disk, none)) (((s.daemon.threads.take i ++ [] ++ s.daemon.threads.drop (i + 1)).flatMap
            Thread.jobs ++ s.daemon.input.map Frame.job).map Job.id) := by
        refine .quiet something reached input (fun other inside => threads other (fewer other ?_))
          files ?_ fun live => ⟨(link live).1, fun id h first keep given => ?_⟩
        · rwa [← append_nil (s.daemon.threads.take i)]
        · show ((s.daemon.threads.take i ++ [] ++ s.daemon.threads.drop (i + 1)).flatMap Thread.jobs ++
            s.daemon.input.map Frame.job).length ≤ 1
          rw [append_nil, nothing]
          exact Nat.zero_le _
        · rcases gives_replied (s := s) given rfl rfl with before | ⟨-, is⟩
          · exact (link live).2 id h first keep before
          · cases is
      rw [append_nil, nothing] at place
      refine inv.served rfl rfl rfl rfl rfl Reached.stays
        ⟨_, answered, place, line.replied rfl rfl rfl⟩ (fun id' sent reply isSent opens given good => ?_)
        (fun w inside => .inl (by simpa [after] using inside))
        fun h inside => inv.fresh h (Daemon.keys_erase_subset inside)
      rcases gives_replied (s := s) given rfl rfl with before | ⟨rfl, -⟩
      · exact .inl before
      · unfold IsClose at kind
        rw [List.getElem?_map, isSent] at kind
        rw [Option.some.inj kind] at opens
        cases opens
    | fail => cases isPart
    | some count => cases isPart

/-- **The thread of the kept file.** -/
theorem inv_kept (inv : Inv call s) (kept : s.Kept call h o file current)
    (line : s.Line ((keptJobs s current file).map Job.id) answered)
    (is : s.daemon.step s.disk i choice = some stepped) : Inv call (s.after stepped) := by
  cases running : file.running with
  | false =>
    obtain ⟨_, found, -⟩ := Option.bind_eq_some_iff.mp is
    rw [kept.threads, running] at found
    cases found
  | true =>
    have threads : s.daemon.threads = [.drain o current] := by
      rw [kept.threads, running]
      rfl
    obtain ⟨-, is⟩ := step_single threads is
    cases current with
    | none => exact inv_idle inv kept running line is
    | some job => exact inv_atWork inv kept running line is

/-- **A thread takes a step.** -/
theorem inv_thread (inv : Inv call s) (threadSteps : s.thread i choice = some s') :
    Inv call s' := by
  obtain ⟨stepped, is, rfl⟩ := Option.map_eq_some_iff.mp threadSteps
  obtain ⟨ids, answered, place, line⟩ := inv.place
  have absurd' (none : s.daemon.threads = []) : False := by
    obtain ⟨_, found, -⟩ := Option.bind_eq_some_iff.mp is
    rw [none] at found
    cases found
  cases place with
  | unsent _ _ _ none | queued _ _ none => exact (absurd' none).elim
  | starting opening threads untouched => exact inv_starting inv line opening threads untouched is
  | opened opening pos threads within reached =>
    exact inv_opened inv line opening threads within reached is
  | kept kept => exact inv_kept inv kept line is
  | quiet something reached input threads files few link =>
    exact inv_quiet inv something reached input threads files few link line is

end System

end TianGong.Remote
