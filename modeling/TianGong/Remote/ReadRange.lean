/-
**Pipelined remote reads.**

`readRange` of `remote-env.ts`: a range of a file is read in consecutive pieces, several of them in
flight. Reads settle in any order; the loop takes them in the order in which they were issued.

* `ReadRange.step`: a read settles, the caller aborts, or the loop goes on.
-/

import Mathlib.Data.List.Perm.Subperm
import TianGong.Lib.Assoc

namespace TianGong.Remote

/-- What a read settles with. -/
inductive ReadReply (E : Type) where
  | bytes (bytes : List UInt8)
  | failed (error : E)

/-- The arguments of a read. -/
structure ReadCall where
  offset : Nat
  length : Nat
  deriving DecidableEq

/-- A read that the loop has in flight: its number, and how much it asked for. -/
structure InFlight where
  read : Nat
  length : Nat

/-- Where `readRange` is. -/
inductive ReadPhase (E : Type) where
  /-- `await head.bytes` -/
  | awaits (chunks : List (List UInt8)) (total next : Nat) (head : InFlight)
    (inFlight : List InFlight)
  | returned (chunks : List (List UInt8)) (total : Nat)
  /-- `return undefined` -/
  | undefined
  | failed (error : E)
  /-- There is no read to await. -/
  | crashed

/-- A range that is read. -/
structure ReadRange where
  offset : Nat
  length : Nat
  chunk : Nat
  depth : Nat

structure Reading (E : Type) where
  /-- The reads that were issued, in their order. -/
  issued : List ReadCall
  settled : List (Nat × ReadReply E)
  aborted : Bool
  phase : ReadPhase E

inductive ReadEvent (E : Type) where
  | settles (read : Nat) (reply : ReadReply E)
  | aborts
  /-- The loop goes on behind its `await`. -/
  | resumes

namespace ReadRange

variable {E : Type} (range : ReadRange)

/-- The inner loop: reads are issued while there is room. -/
def fill : Nat → List ReadCall → Nat → List InFlight → List ReadCall × Nat × List InFlight
  | 0, issued, next, inFlight => (issued, next, inFlight)
  | fuel + 1, issued, next, inFlight =>
    if inFlight.length < range.depth ∧ next < range.offset + range.length then
      let size := min (range.offset + range.length - next) range.chunk
      fill fuel (issued ++ [⟨next, size⟩]) (next + size) (inFlight ++ [⟨issued.length, size⟩])
    else (issued, next, inFlight)

/-- The head of the outer loop, up to the next `await`. -/
def continue_ (reading : Reading E) (chunks : List (List UInt8)) (total next : Nat)
    (inFlight : List InFlight) : Reading E :=
  if total < range.length then
    let (issued, next, inFlight) := range.fill range.depth reading.issued next inFlight
    { reading with
      issued := issued
      phase := match inFlight with
        | head :: inFlight => .awaits chunks total next head inFlight
        | [] => .crashed }
  else { reading with phase := .returned chunks total }

/-- The call of `readRange`. -/
def start : Reading E := range.continue_ ⟨[], [], false, .crashed⟩ [] 0 range.offset []

/-- The loop takes what the read that it awaits has settled with. -/
def take (reading : Reading E) (chunks : List (List UInt8)) (total next : Nat) (head : InFlight)
    (inFlight : List InFlight) : ReadReply E → Reading E
  | .failed error => { reading with phase := .failed error }
  | .bytes bytes =>
    if reading.aborted then { reading with phase := .undefined }
    else if bytes.length = 0 then { reading with phase := .returned chunks total }
    else if bytes.length < head.length then
      -- Reads already in flight assumed a full read; continue right after this one.
      range.continue_ reading (chunks ++ [bytes]) (total + bytes.length)
        (range.offset + (total + bytes.length)) []
    else range.continue_ reading (chunks ++ [bytes]) (total + bytes.length) next inFlight

/-- One event, where it can happen. -/
def step (reading : Reading E) : ReadEvent E → Option (Reading E)
  | .settles read reply =>
    if read < reading.issued.length ∧ read ∉ Assoc.keys reading.settled then
      some { reading with settled := Assoc.set read reply reading.settled }
    else none
  | .aborts => if reading.aborted then none else some { reading with aborted := true }
  | .resumes =>
    match reading.phase with
    | .awaits chunks total next head inFlight =>
      (Assoc.get head.read reading.settled).map (range.take reading chunks total next head inFlight)
    | _ => none

/-! ### The environment -/

/-- What a read of a file may settle with: a failure, or bytes from its offset on, at least one before
the end of the file. -/
def Answers (file : List UInt8) (call : ReadCall) : ReadReply E → Prop
  | .failed _ => True
  | .bytes bytes => bytes <+: file.drop call.offset ∧ bytes.length ≤ call.length ∧
    (bytes = [] → call.length = 0 ∨ file.length ≤ call.offset)

/-- The reads of the file settle with what they may. -/
def Fits (file : List UInt8) (reading : Reading E) : ReadEvent E → Prop
  | .settles read reply => ∀ call, reading.issued[read]? = some call → Answers file call reply
  | _ => True

/-- A run of some events. -/
inductive Run (file : List UInt8) : Nat → Reading E → Prop
  | start : Run file 0 range.start
  | step {events : Nat} {reading next : Reading E} (before : Run file events reading)
      (event : ReadEvent E) (fits : Fits file reading event)
      (happens : range.step reading event = some next) : Run file (events + 1) next

/-! ### Reads one behind the other -/

/-- How far reads in sequence have come. -/
inductive Progress (E : Type) where
  | reading (chunks : List (List UInt8)) (total : Nat)
  | ended (chunks : List (List UInt8)) (total : Nat)
  | failed (error : E)

/-- What a read adds. -/
def Progress.after (chunks : List (List UInt8)) (total : Nat) : ReadReply E → Progress E
  | .failed error => .failed error
  | .bytes bytes =>
    if bytes.length = 0 then .ended chunks total
    else .reading (chunks ++ [bytes]) (total + bytes.length)

/-- **Sequential reading**: each read starts where the one before ended. -/
inductive Sequential : List (ReadCall × ReadReply E) → Progress E → Prop
  | start : Sequential [] (.reading [] 0)
  | read {done : List (ReadCall × ReadReply E)} {chunks : List (List UInt8)} {total : Nat}
      (before : Sequential done (.reading chunks total)) (more : total < range.length)
      (reply : ReadReply E) :
      Sequential (done ++ [(⟨range.offset + total, min (range.length - total) range.chunk⟩, reply)])
        (Progress.after chunks total reply)

section Sequential

variable {range} {file : List UInt8} {done : List (ReadCall × ReadReply E)} {progress : Progress E}

/-- What sequential reading has of the file. -/
def Progress.Of (range : ReadRange) (file : List UInt8) : Progress E → Prop
  | .reading chunks total => chunks.flatten = (file.drop range.offset).take total ∧
    chunks.flatten.length = total ∧ total ≤ range.length
  | .ended chunks total => chunks.flatten = (file.drop range.offset).take total ∧
    chunks.flatten.length = total ∧ total ≤ range.length ∧ file.length ≤ range.offset + total
  | .failed _ => True

/-- **Sequential reading returns the file's bytes** in their order. -/
theorem Sequential.of (sequential : Sequential range done progress) (pieces : 0 < range.chunk)
    (answers : ∀ pair ∈ done, Answers file pair.1 pair.2) : progress.Of range file := by
  induction sequential with
  | start => exact ⟨by simp, rfl, Nat.zero_le _⟩
  | @read done chunks total before more reply ih =>
    obtain ⟨bytes, length, short⟩ := ih fun pair member => answers pair
      (List.mem_append_left _ member)
    have answer := answers _ (List.mem_append_right _ (List.mem_singleton_self _))
    rcases reply with piece | error
    · obtain ⟨there, within, empty⟩ := answer
      unfold Progress.after
      dsimp only
      split_ifs with none
      · have past := (empty (List.length_eq_zero_iff.mp none)).resolve_left (by
          dsimp only
          omega)
        exact ⟨bytes, length, short, past⟩
      · refine ⟨?_, ?_, ?_⟩
        · rw [List.flatten_concat, bytes, List.take_add, List.drop_drop]
          congr 1
          exact List.prefix_iff_eq_take.mp there
        · rw [List.flatten_concat, List.length_append, length]
        · have bound : piece.length ≤ range.length - total :=
            Nat.le_trans within (Nat.min_le_left _ _)
          omega
    · trivial

end Sequential

end ReadRange

end TianGong.Remote
