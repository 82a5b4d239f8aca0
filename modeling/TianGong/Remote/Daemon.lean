/-
**The daemon's file writes.**

`main.rs` and `fs.rs` of tg-env: requests arrive in order, and are answered by a pool of threads.

* `Daemon.runInOrder`, `Daemon.serve`: chunk writes to one handle are queued behind each other, and
  one thread drains the queue.

A file is written by one request at a time, at its end, so a write appends.
-/

import TianGong.Lib.Assoc
import TianGong.Text

namespace TianGong.Remote

/-- Open handles per connection. -/
def MAX_HANDLES : Nat := 4096

/-- What the files hold. -/
abbrev Disk := Text → List UInt8

def Disk.put (disk : Disk) (path : Text) (bytes : List UInt8) : Disk :=
  fun path' => if path' = path then bytes else disk path'

/-- Requests of a write. -/
inductive Request where
  | write (path : Text) (append keep : Bool) (payload : List UInt8)
  | writeChunk (handle : Nat) (payload : List UInt8)
  | close (handle : Nat)

/-- A frame of kind `REQUEST`. -/
structure Frame where
  id : Nat
  request : Request

/-- A frame of kind `RESULT` or `ERROR`. -/
inductive Reply where
  | done
  /-- `{ handle }` -/
  | opened (handle : Nat)
  | error
  deriving DecidableEq

/-- What is left of a request. -/
inductive JobState where
  | start (request : Request)
  /-- `fs::write` has opened the file. -/
  | write (path : Text) (keep : Bool) (rest : List UInt8)
  /-- `write_all` of a chunk, on a file handle. -/
  | chunk (file : Nat) (rest : List UInt8)

/-- A call of `respond`. -/
structure Job where
  id : Nat
  state : JobState

/-- An `Arc<FileHandle>`, with its `serial`. -/
structure FileHandle where
  path : Text
  failed : Bool
  jobs : List Frame
  running : Bool

inductive Handle where
  | file (file : Nat)
  /-- A directory, or a file that is read. -/
  | other

/-- What was sent to the pool. -/
inductive Thread where
  | respond (job : Job)
  /-- The job of `run_in_order`. -/
  | drain (file : Nat) (current : Option Job)

structure Daemon where
  /-- The frames that were not read. -/
  input : List Frame
  handles : List (Nat × Handle)
  nextHandle : Nat
  files : List FileHandle
  threads : List Thread
  output : List (Nat × Reply)

def Daemon.started : Daemon := ⟨[], [], 1, [], [], []⟩

namespace Daemon

variable (d : Daemon)

/-- `Server::file` -/
def file (handle : Nat) : Option Nat :=
  match Assoc.get handle d.handles with
  | some (.file file) => some file
  | _ => none

/-- `Server::insert` -/
def insert (handle : Handle) : Option (Nat × Daemon) :=
  if d.handles.length ≥ MAX_HANDLES then none
  else some (d.nextHandle,
    { d with handles := d.handles ++ [(d.nextHandle, handle)], nextHandle := d.nextHandle + 1 })

/-- `Server::insert_file` -/
def insertFile (path : Text) : Option (Nat × Daemon) :=
  insert { d with files := d.files ++ [⟨path, false, [], false⟩] } (.file d.files.length)

/-- A job is sent to the pool. -/
def send (thread : Thread) : Daemon := { d with threads := d.threads ++ [thread] }

def setFile (file : Nat) (handle : FileHandle) : Daemon :=
  { d with files := d.files.set file handle }

/-- `run_in_order` -/
def runInOrder (file : Nat) (frame : Frame) : Daemon :=
  match d.files[file]? with
  | none => d
  | some handle =>
    let pushed := { handle with jobs := handle.jobs ++ [frame] }
    if handle.running then d.setFile file pushed
    else (d.setFile file { pushed with running := true }).send (.drain file none)

/-- `serve_frames`, for one request. -/
def serve (frame : Frame) : Daemon :=
  let serial := match frame.request with
    | .writeChunk handle _ => d.file handle
    | _ => none
  match serial with
  | some file => d.runInOrder file frame
  | none => d.send (.respond ⟨frame.id, .start frame.request⟩)

end Daemon

/-! ### A request, part by part -/

/-- How a part goes: an operation of the system succeeds, fails, or writes some bytes. -/
inductive Choice where
  | go
  | fail
  | some (count : Nat)

/-- After a part of a request. -/
structure Part where
  daemon : Daemon
  disk : Disk
  /-- The file that bytes were written to. -/
  wrote : Option Text
  next : JobState ⊕ Reply

/-- A part of `dispatch`. -/
def stepJob (d : Daemon) (disk : Disk) : JobState → Choice → Option Part
  | .start (.write path append keep payload), .go =>
    some ⟨d, disk.put path (if append then disk path else []), none, .inl (.write path keep payload)⟩
  | .start (.write ..), .fail => some ⟨d, disk, none, .inr .error⟩
  | .write path keep rest, .some count =>
    if 0 < count ∧ count ≤ rest.length then
      some ⟨d, disk.put path (disk path ++ rest.take count), some path,
        .inl (.write path keep (rest.drop count))⟩
    else none
  | .write _ _ (_ :: _), .fail => some ⟨d, disk, none, .inr .error⟩
  | .write _ false [], .go => some ⟨d, disk, none, .inr .done⟩
  | .write path true [], .go =>
    match d.insertFile path with
    | none => some ⟨d, disk, none, .inr .error⟩
    | some (handle, d) => some ⟨d, disk, none, .inr (.opened handle)⟩
  | .start (.writeChunk handle payload), .go =>
    match d.file handle with
    | none => some ⟨d, disk, none, .inr .error⟩
    | some file =>
      if (d.files[file]?.any FileHandle.failed) then some ⟨d, disk, none, .inr .error⟩
      else some ⟨d, disk, none, .inl (.chunk file payload)⟩
  | .chunk file rest, .some count =>
    d.files[file]?.bind fun handle =>
      if 0 < count ∧ count ≤ rest.length then
        some ⟨d, disk.put handle.path (disk handle.path ++ rest.take count), some handle.path,
          .inl (.chunk file (rest.drop count))⟩
      else none
  | .chunk file (_ :: _), .fail =>
    d.files[file]?.map fun handle =>
      ⟨d.setFile file { handle with failed := true }, disk, none, .inr .error⟩
  | .chunk _ [], .go => some ⟨d, disk, none, .inr .done⟩
  | .start (.close handle), .go =>
    some ⟨{ d with handles := Assoc.erase handle d.handles }, disk, none, .inr .done⟩
  | _, _ => none

/-- A thread after a part of its job: it goes on with it, or has answered. -/
def Part.resume (part : Part) (i id : Nat) (goesOn : Job → Thread) (ends : List Thread) : Daemon :=
  match part.next with
  | .inl state => { part.daemon with threads := part.daemon.threads.set i (goesOn ⟨id, state⟩) }
  | .inr reply =>
    { part.daemon with
      threads := part.daemon.threads.take i ++ ends ++ part.daemon.threads.drop (i + 1)
      output := part.daemon.output ++ [(id, reply)] }

/-- After a step of a thread: the daemon, the files, and the file that bytes were written to. -/
abbrev Stepped := Daemon × Disk × Option Text

/-- A thread takes a step. -/
def Daemon.step (d : Daemon) (disk : Disk) (i : Nat) (choice : Choice) : Option Stepped :=
  d.threads[i]?.bind fun thread =>
    match thread with
    | .respond job => (stepJob d disk job.state choice).map fun part =>
      (part.resume i job.id .respond [], part.disk, part.wrote)
    | .drain file none =>
      d.files[file]?.map fun handle =>
        match handle.jobs with
        | [] => ({ d.setFile file { handle with running := false } with
            threads := d.threads.take i ++ d.threads.drop (i + 1) }, disk, none)
        | frame :: jobs => ({ d.setFile file { handle with jobs } with
            threads := d.threads.set i (.drain file (some ⟨frame.id, .start frame.request⟩)) },
          disk, none)
    | .drain file (some job) => (stepJob d disk job.state choice).map fun part =>
      (part.resume i job.id (fun job => .drain file (some job)) [.drain file none], part.disk,
        part.wrote)

end TianGong.Remote
