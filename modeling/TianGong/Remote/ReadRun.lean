/-
**A range read in pieces is read as in sequence.**

* `Chained`: the reads in flight follow one another, each as long as the one behind it assumes.
* `readRange_as_sequential`: the results are those of sequential reading, and the loop ends.
-/

import TianGong.Remote.ReadRange

namespace TianGong.Remote.ReadRange

open List
open Assoc (get keys)

variable {E : Type} {range : ReadRange} {file : List UInt8}

/-! ### The reads in flight -/

/-- The reads in flight are those of consecutive pieces. -/
def Chained (range : ReadRange) (issued : List ReadCall) : Nat → Nat → List InFlight → Prop
  | position, next, [] => position = next
  | position, next, inFlight :: rest =>
    position < range.offset + range.length ∧
    issued[inFlight.read]? = some ⟨position, inFlight.length⟩ ∧
    inFlight.length = min (range.offset + range.length - position) range.chunk ∧
    Chained range issued (position + inFlight.length) next rest

variable {issued : List ReadCall}

/-- **A read is issued** behind the others. -/
theorem Chained.issue {next size : Nat} {inFlight : List InFlight}
    (before : next < range.offset + range.length)
    (length : size = min (range.offset + range.length - next) range.chunk) :
    ∀ {position : Nat}, Chained range issued position next inFlight →
      Chained range (issued ++ [⟨next, size⟩]) position (next + size)
        (inFlight ++ [⟨issued.length, size⟩]) := by
  induction inFlight with
  | nil =>
    rintro position rfl
    exact ⟨before, List.getElem?_concat_length, length, rfl⟩
  | cons head rest ih =>
    rintro position ⟨inside, call, size, chained⟩
    refine ⟨inside, ?_, size, ih chained⟩
    rw [List.getElem?_append_left (List.getElem?_eq_some_iff.mp call).1]
    exact call

/-- **What the inner loop does**: reads are added behind the others, one for each round at most. -/
theorem fill_spec {position : Nat} : ∀ (fuel : Nat) (issued : List ReadCall) (next : Nat)
    (inFlight : List InFlight), Chained range issued position next inFlight →
    issued <+: (range.fill fuel issued next inFlight).1 ∧
    (range.fill fuel issued next inFlight).1.length ≤ issued.length + fuel ∧
    Chained range (range.fill fuel issued next inFlight).1 position
      (range.fill fuel issued next inFlight).2.1 (range.fill fuel issued next inFlight).2.2 ∧
    inFlight <+: (range.fill fuel issued next inFlight).2.2 := by
  intro fuel
  induction fuel with
  | zero =>
    intro issued next inFlight chained
    exact ⟨prefix_rfl, Nat.le_refl _, chained, prefix_rfl⟩
  | succ fuel ih =>
    intro issued next inFlight chained
    unfold fill
    split_ifs with room
    · obtain ⟨longer, bound, still, behind⟩ := ih _ _ _ (chained.issue room.2 rfl)
      refine ⟨(prefix_append _ _).trans longer, Nat.le_trans bound ?_, still,
        (prefix_append _ _).trans behind⟩
      rw [length_append, length_singleton]
      omega
    · exact ⟨prefix_rfl, Nat.le_add_right _ _, chained, prefix_rfl⟩

/-- There is something to await while something is missing. -/
theorem fill_ne_nil {fuel : Nat} {position next : Nat} {inFlight : List InFlight}
    (deep : 0 < range.depth) (fueled : 0 < fuel)
    (missing : position < range.offset + range.length)
    (chained : Chained range issued position next inFlight) :
    (range.fill fuel issued next inFlight).2.2 ≠ [] := by
  obtain ⟨fuel, rfl⟩ := Nat.exists_eq_succ_of_ne_zero (Nat.pos_iff_ne_zero.mp fueled)
  intro none
  unfold fill at none
  split_ifs at none with room
  · have behind := (fill_spec fuel _ _ _ (chained.issue room.2 rfl)).2.2.2
    rw [none] at behind
    exact append_ne_nil_of_right_ne_nil _ (cons_ne_nil _ _) (List.prefix_nil.mp behind)
  · obtain rfl : inFlight = [] := none
    obtain rfl : position = next := chained
    exact room ⟨deep, missing⟩

/-! ### The loop by sequential reading -/

/-- Where the loop is, by how far sequential reading has come. -/
inductive Matches (range : ReadRange) (issued : List ReadCall) (aborted : Bool) :
    ReadPhase E → Progress E → Prop
  | awaits {chunks : List (List UInt8)} {total next : Nat} {head : InFlight}
      {inFlight : List InFlight} (more : total < range.length)
      (chained : Chained range issued (range.offset + total) next (head :: inFlight)) :
      Matches range issued aborted (.awaits chunks total next head inFlight) (.reading chunks total)
  | filled {chunks : List (List UInt8)} {total : Nat} (full : range.length ≤ total) :
      Matches range issued aborted (.returned chunks total) (.reading chunks total)
  | ended {chunks : List (List UInt8)} {total : Nat} :
      Matches range issued aborted (.returned chunks total) (.ended chunks total)
  | failed {error : E} : Matches range issued aborted (.failed error) (.failed error)
  | undefined {chunks : List (List UInt8)} {total : Nat} (stopped : aborted = true) :
      Matches range issued aborted .undefined (.reading chunks total)

/-- A read that the loop has taken: it was issued, and settled with this. -/
def Took (reading : Reading E) (pair : ReadCall × ReadReply E) : Prop :=
  ∃ read, reading.issued[read]? = some pair.1 ∧ get read reading.settled = some pair.2

/-- **What every event keeps.** -/
structure Kept (range : ReadRange) (file : List UInt8) (reading : Reading E)
    (done : List (ReadCall × ReadReply E)) (progress : Progress E) : Prop where
  sequential : Sequential range done progress
  took : ∀ pair ∈ done, Took reading pair
  atPhase : Matches range reading.issued reading.aborted reading.phase progress
  issued : ∀ read reply, get read reading.settled = some reply →
    ∃ call, reading.issued[read]? = some call ∧ Answers file call reply
  once : (keys reading.settled).Nodup

/-- The loop goes on: it awaits a read, or has all it is to read. -/
theorem continue_spec (deep : 0 < range.depth) (reading : Reading E) (chunks : List (List UInt8))
    (total next : Nat) (inFlight : List InFlight)
    (chained : Chained range reading.issued (range.offset + total) next inFlight) :
    reading.issued <+: (range.continue_ reading chunks total next inFlight).issued ∧
    (range.continue_ reading chunks total next inFlight).issued.length ≤
      reading.issued.length + range.depth ∧
    (range.continue_ reading chunks total next inFlight).settled = reading.settled ∧
    (range.continue_ reading chunks total next inFlight).aborted = reading.aborted ∧
    Matches range (range.continue_ reading chunks total next inFlight).issued reading.aborted
      (range.continue_ reading chunks total next inFlight).phase (.reading chunks total) := by
  unfold continue_
  split_ifs with more
  · obtain ⟨longer, bound, still, -⟩ := fill_spec range.depth _ _ _ chained
    have some := fill_ne_nil deep deep (Nat.add_lt_add_left more _) chained
    generalize range.fill range.depth reading.issued next inFlight = filled at *
    obtain ⟨issued, next, inFlight⟩ := filled
    rcases inFlight with _ | ⟨head, rest⟩
    · exact absurd rfl some
    · exact ⟨longer, bound, rfl, rfl, .awaits more still⟩
  · exact ⟨prefix_rfl, Nat.le_add_right _ _, rfl, rfl, .filled (Nat.not_lt.mp more)⟩

/-! ### One event -/

section Step

variable {reading next : Reading E} {done : List (ReadCall × ReadReply E)} {progress : Progress E}

/-- What was taken stays taken while replies and reads are only added. -/
theorem Took.mono {pair : ReadCall × ReadReply E} (took : Took reading pair)
    (issued : reading.issued <+: next.issued)
    (settled : ∀ read reply, get read reading.settled = some reply →
      get read next.settled = some reply) : Took next pair := by
  obtain ⟨read, call, reply⟩ := took
  obtain ⟨added, longer⟩ := issued
  refine ⟨read, ?_, settled read _ reply⟩
  rw [← longer, List.getElem?_append_left (List.getElem?_eq_some_iff.mp call).1]
  exact call

theorem Matches.abort {aborted : Bool} {phase : ReadPhase E}
    (atPhase : Matches range issued aborted phase progress) :
    Matches range issued true phase progress := by
  cases atPhase with
  | awaits more chained => exact .awaits more chained
  | filled full => exact .filled full
  | ended => exact .ended
  | failed => exact .failed
  | undefined stopped => exact .undefined rfl

/-- At the start nothing is read. -/
theorem kept_start (deep : 0 < range.depth) :
    Kept range file (range.start : Reading E) [] (.reading [] 0) := by
  obtain ⟨-, -, settled, aborted, phase⟩ := continue_spec deep
    (⟨[], [], false, .crashed⟩ : Reading E) [] 0 range.offset [] rfl
  constructor
  · exact .start
  · exact fun pair member => absurd member not_mem_nil
  · unfold start
    rw [aborted]
    exact phase
  · intro read reply found
    unfold start at found
    rw [settled] at found
    exact absurd found (by simp)
  · unfold start
    rw [settled]
    exact nodup_nil

/-- **A read settles.** -/
theorem Kept.settles (kept : Kept range file reading done progress) {read : Nat}
    {reply : ReadReply E} (issued : read < reading.issued.length)
    (unsettled : read ∉ keys reading.settled)
    (fits : Fits file reading (.settles read reply)) :
    Kept range file { reading with settled := Assoc.set read reply reading.settled } done
      progress := by
  constructor
  · exact kept.sequential
  · refine fun pair member => (kept.took pair member).mono prefix_rfl fun other old found => ?_
    have different : read ≠ other := by
      rintro rfl
      exact unsettled (Assoc.has_iff.mp (by rw [Assoc.has, found]; rfl))
    exact (Assoc.get_set_ne different reply reading.settled).trans found
  · exact kept.atPhase
  · intro other answer found
    dsimp only at found
    rw [Assoc.get_set] at found
    split_ifs at found with same
    · obtain rfl : reply = answer := Option.some.inj found
      subst same
      exact ⟨_, List.getElem?_eq_getElem issued, fits _ (List.getElem?_eq_getElem issued)⟩
    · exact kept.issued other answer found
  · exact Assoc.nodup_set reply kept.once

/-- The replies so far, with the reply that the loop takes next. -/
theorem Kept.awaited (kept : Kept range file reading done progress)
    {chunks : List (List UInt8)} {total next : Nat} {head : InFlight} {inFlight : List InFlight}
    (phase : reading.phase = .awaits chunks total next head inFlight) {reply : ReadReply E}
    (found : get head.read reading.settled = some reply) :
    ∃ call, call.length = head.length ∧ total < range.length ∧
      Sequential range (done ++ [(call, reply)]) (Progress.after chunks total reply) ∧
      Took reading (call, reply) ∧ Answers file call reply ∧ progress = .reading chunks total ∧
      Chained range reading.issued (range.offset + (total + head.length)) next inFlight := by
  have atPhase := kept.atPhase
  rw [phase] at atPhase
  cases atPhase with
  | awaits more chained =>
    obtain ⟨-, call, length, rest⟩ := chained
    obtain ⟨other, same, answers⟩ := kept.issued _ _ found
    obtain rfl := Option.some.inj (call.symm.trans same)
    refine ⟨_, rfl, more, ?_, ⟨_, call, found⟩, answers, rfl, Nat.add_assoc _ _ _ ▸ rest⟩
    rw [length, Nat.add_sub_add_left]
    exact kept.sequential.read more reply

/-- The same reads with another phase. -/
theorem Kept.atEnd (kept : Kept range file reading done progress)
    {pair : ReadCall × ReadReply E} (took : Took reading pair) {phase : ReadPhase E}
    {ended : Progress E} (sequential : Sequential range (done ++ [pair]) ended)
    (atPhase : Matches range reading.issued reading.aborted phase ended) :
    Kept range file { reading with phase := phase } (done ++ [pair]) ended := by
  refine ⟨sequential, fun other member => ?_, atPhase, kept.issued, kept.once⟩
  rcases List.mem_append.mp member with before | last
  · exact kept.took other before
  · rw [List.mem_singleton.mp last]
    exact took

/-- **The loop goes on** behind a read that brought something. -/
theorem Kept.continues (deep : 0 < range.depth) (kept : Kept range file reading done progress)
    {pair : ReadCall × ReadReply E} (took : Took reading pair) {chunks : List (List UInt8)}
    {total next : Nat} {inFlight : List InFlight}
    (sequential : Sequential range (done ++ [pair]) (.reading chunks total))
    (chained : Chained range reading.issued (range.offset + total) next inFlight) :
    Kept range file (range.continue_ reading chunks total next inFlight) (done ++ [pair])
      (.reading chunks total) := by
  obtain ⟨longer, -, settled, aborted, phase⟩ :=
    continue_spec deep reading chunks total next inFlight chained
  generalize range.continue_ reading chunks total next inFlight = continued at *
  refine ⟨sequential, fun other member => ?_, aborted ▸ phase, fun read reply found => ?_, ?_⟩
  · refine Took.mono ?_ longer fun read reply found => settled ▸ found
    rcases List.mem_append.mp member with before | last
    · exact kept.took other before
    · rw [List.mem_singleton.mp last]
      exact took
  · obtain ⟨call, issued, answers⟩ := kept.issued read reply (settled ▸ found)
    obtain ⟨added, more⟩ := longer
    refine ⟨call, ?_, answers⟩
    rw [← more, List.getElem?_append_left (List.getElem?_eq_some_iff.mp issued).1]
    exact issued
  · rw [settled]
    exact kept.once

/-- **The loop takes the reply** it awaits. -/
theorem Kept.take (deep : 0 < range.depth) (kept : Kept range file reading done progress)
    {chunks : List (List UInt8)} {total next : Nat} {head : InFlight} {inFlight : List InFlight}
    (phase : reading.phase = .awaits chunks total next head inFlight) {reply : ReadReply E}
    (found : get head.read reading.settled = some reply) :
    ∃ done' progress',
      Kept range file (range.take reading chunks total next head inFlight reply) done'
        progress' := by
  obtain ⟨call, length, more, sequential, took, answers, rfl, chained⟩ := kept.awaited phase found
  rcases reply with bytes | error
  · unfold ReadRange.take
    unfold Progress.after at sequential
    dsimp only at sequential ⊢
    split_ifs at sequential ⊢ with stopped none short short
    · exact ⟨_, _, kept.sequential, kept.took, .undefined stopped, kept.issued, kept.once⟩
    · exact ⟨_, _, kept.sequential, kept.took, .undefined stopped, kept.issued, kept.once⟩
    · exact ⟨_, _, kept.atEnd took sequential .ended⟩
    · exact ⟨_, _, kept.continues deep took sequential rfl⟩
    · obtain full : bytes.length = head.length :=
        Nat.le_antisymm (length ▸ answers.2.1) (Nat.not_lt.mp short)
      exact ⟨_, _, kept.continues deep took sequential (full ▸ chained)⟩
  · exact ⟨_, _, kept.atEnd took sequential .failed⟩

/-- **Every event keeps it.** -/
theorem Kept.step (deep : 0 < range.depth) (kept : Kept range file reading done progress)
    {event : ReadEvent E}
    (fits : Fits file reading event) (happens : range.step reading event = some next) :
    ∃ done' progress', Kept range file next done' progress' := by
  rcases event with ⟨read, reply⟩ | _ | _
  · unfold ReadRange.step at happens
    dsimp only at happens
    split_ifs at happens with unsettled
    obtain rfl := Option.some.inj happens
    exact ⟨done, progress, kept.settles unsettled.1 unsettled.2 fits⟩
  · unfold ReadRange.step at happens
    dsimp only at happens
    split_ifs at happens
    obtain rfl := Option.some.inj happens
    exact ⟨done, progress, kept.sequential, kept.took, kept.atPhase.abort, kept.issued, kept.once⟩
  · unfold ReadRange.step at happens
    dsimp only at happens
    split at happens
    · obtain ⟨reply, found, rfl⟩ := Option.map_eq_some_iff.mp happens
      exact kept.take deep ‹_› found
    · exact absurd happens (by simp)

/-! ### The end of the loop -/

/-- What every event makes smaller. -/
def potential (range : ReadRange) (reading : Reading E) : Nat :=
  (match reading.phase with
    | .awaits _ total _ _ _ => (range.depth + 1) * (range.length - total) + 1
    | _ => 0) +
  (reading.issued.length - reading.settled.length) + if reading.aborted then 0 else 1

/-- The reads that have settled are some of those issued. -/
theorem Kept.settled_le (kept : Kept range file reading done progress) :
    reading.settled.length ≤ reading.issued.length := by
  have inside : keys reading.settled ⊆ List.range reading.issued.length := by
    intro read member
    obtain ⟨reply, found⟩ := Option.isSome_iff_exists.mp (Assoc.has_iff.mpr member)
    obtain ⟨call, issued, -⟩ := kept.issued read reply found
    exact List.mem_range.mpr (List.getElem?_eq_some_iff.mp issued).1
  simpa [Assoc.keys] using (kept.once.subperm inside).length_le

/-- The loop that goes on has less to read. -/
theorem potential_continue (deep : 0 < range.depth) (reading : Reading E)
    (chunks : List (List UInt8)) (total next : Nat) (inFlight : List InFlight)
    (chained : Chained range reading.issued (range.offset + total) next inFlight) :
    potential range (range.continue_ reading chunks total next inFlight) ≤
      (range.depth + 1) * (range.length - total) + 1 + range.depth +
        (reading.issued.length - reading.settled.length) + if reading.aborted then 0 else 1 := by
  obtain ⟨-, bound, settled, aborted, phase⟩ :=
    continue_spec deep reading chunks total next inFlight chained
  generalize range.continue_ reading chunks total next inFlight = continued at *
  unfold potential
  rw [settled, aborted]
  rcases continued with ⟨issued, _, _, _⟩
  cases phase with
  | awaits more chained | filled full | undefined stopped =>
    dsimp only at bound ⊢
    omega

/-- Taking a reply makes it smaller. -/
theorem Kept.potential_take (deep : 0 < range.depth)
    (kept : Kept range file reading done progress) {chunks : List (List UInt8)}
    {total next : Nat} {head : InFlight} {inFlight : List InFlight}
    (phase : reading.phase = .awaits chunks total next head inFlight) {reply : ReadReply E}
    (found : get head.read reading.settled = some reply) :
    potential range (range.take reading chunks total next head inFlight reply) <
      potential range reading := by
  obtain ⟨call, length, more, -, -, answers, -, chained⟩ := kept.awaited phase found
  have before : potential range reading = (range.depth + 1) * (range.length - total) + 1 +
      (reading.issued.length - reading.settled.length) + if reading.aborted then 0 else 1 := by
    unfold potential
    rw [phase]
  have less : ∀ read, 0 < read → (range.depth + 1) * (range.length - (total + read)) +
      (range.depth + 1) ≤ (range.depth + 1) * (range.length - total) := by
    intro read positive
    rw [← Nat.mul_succ]
    exact Nat.mul_le_mul_left _ (by omega)
  rw [before]
  rcases reply with bytes | error
  · unfold ReadRange.take
    dsimp only
    split_ifs with stopped none short
    · unfold potential
      dsimp only
      rw [if_pos stopped]
      omega
    · unfold potential
      dsimp only
      rw [if_neg stopped]
      omega
    · have continued := potential_continue deep reading (chunks ++ [bytes])
        (total + bytes.length) _ [] rfl
      have smaller := less bytes.length (Nat.pos_of_ne_zero none)
      rw [if_neg stopped] at continued
      omega
    · obtain full : bytes.length = head.length :=
        Nat.le_antisymm (length ▸ answers.2.1) (Nat.not_lt.mp short)
      have continued := potential_continue deep reading (chunks ++ [bytes])
        (total + bytes.length) next inFlight (full ▸ chained)
      have smaller := less bytes.length (Nat.pos_of_ne_zero none)
      rw [if_neg stopped] at continued
      omega
  · unfold ReadRange.take potential
    dsimp only
    omega

/-- **Every event makes it smaller.** -/
theorem Kept.potential_lt (deep : 0 < range.depth) (kept : Kept range file reading done progress)
    {event : ReadEvent E} (fits : Fits file reading event)
    (happens : range.step reading event = some next) :
    potential range next < potential range reading := by
  rcases event with ⟨read, reply⟩ | _ | _
  · unfold ReadRange.step at happens
    dsimp only at happens
    split_ifs at happens with unsettled
    obtain rfl := Option.some.inj happens
    have room := (kept.settles unsettled.1 unsettled.2 fits).settled_le
    have one : (Assoc.set read reply reading.settled).length = reading.settled.length + 1 := by
      unfold Assoc.set
      rw [if_neg (fun there => unsettled.2 (Assoc.has_iff.mp there)), length_append,
        length_singleton]
    unfold potential
    dsimp only at room ⊢
    omega
  · unfold ReadRange.step at happens
    dsimp only at happens
    split_ifs at happens with aborted
    obtain rfl := Option.some.inj happens
    unfold potential
    rw [if_neg aborted, if_pos rfl]
    dsimp only
    omega
  · unfold ReadRange.step at happens
    dsimp only at happens
    split at happens
    · obtain ⟨reply, found, rfl⟩ := Option.map_eq_some_iff.mp happens
      exact kept.potential_take deep ‹_› found
    · exact absurd happens (by simp)

end Step

/-! ### The whole run -/

/-- **Every run keeps it**, and is no longer than the range allows. -/
theorem Run.kept (deep : 0 < range.depth) {events : Nat} {reading : Reading E}
    (run : Run range file events reading) : ∃ done progress,
      Kept range file reading done progress ∧
      events + potential range reading ≤ (range.depth + 1) * (range.length + 1) + 1 := by
  induction run with
  | start =>
    refine ⟨_, _, kept_start deep, ?_⟩
    have bound := potential_continue deep
      (⟨[], [], false, .crashed⟩ : Reading E) [] 0 range.offset [] rfl
    change 0 + potential range (range.continue_ ⟨[], [], false, .crashed⟩ [] 0 range.offset []) ≤ _
    simp only [Nat.sub_zero, length_nil, Bool.false_eq_true, if_false] at bound
    rw [Nat.mul_succ]
    omega
  | step before event fits happens ih =>
    obtain ⟨done, progress, kept, bound⟩ := ih
    obtain ⟨done', progress', kept'⟩ := kept.step deep fits happens
    have less := kept.potential_lt deep fits happens
    exact ⟨done', progress', kept', by omega⟩

/-! ### The bytes -/

/-- Where `chunks` are copied to. -/
def concatFrom (bytes : List UInt8) (position : Nat) : List (List UInt8) → Option (List UInt8)
  | [] => some bytes
  | chunk :: rest =>
    -- `Uint8Array.set` throws for what does not fit.
    if position + chunk.length ≤ bytes.length then
      concatFrom (bytes.take position ++ chunk ++ bytes.drop (position + chunk.length))
        (position + chunk.length) rest
    else none

def concat (chunks : List (List UInt8)) (total : Nat) : Option (List UInt8) :=
  match chunks with
  | [chunk] => some chunk
  | chunks => concatFrom (List.replicate total 0) 0 chunks

/-- The chunks are copied behind what is there. -/
theorem concatFrom_eq (chunks : List (List UInt8)) : ∀ (copied : List UInt8),
    concatFrom (copied ++ List.replicate chunks.flatten.length 0) copied.length chunks =
      some (copied ++ chunks.flatten) := by
  induction chunks with
  | nil =>
    intro copied
    rfl
  | cons chunk rest ih =>
    intro copied
    have next := ih (copied ++ chunk)
    rw [length_append] at next
    unfold concatFrom
    rw [flatten_cons, length_append, if_pos (by simp), take_left, List.drop_append,
      drop_eq_nil_of_le (Nat.le_add_right _ _), Nat.add_sub_cancel_left, nil_append,
      drop_replicate, length_append, Nat.add_sub_cancel_left, next, append_assoc]

/-- **The chunks are put together.** -/
theorem concat_eq (chunks : List (List UInt8)) :
    concat chunks chunks.flatten.length = some chunks.flatten := by
  unfold concat
  split
  · simp
  · exact concatFrom_eq chunks []

/-- What the loop returns are the bytes of the range that the file has. -/
theorem Kept.returned (pieces : 0 < range.chunk) {reading : Reading E}
    {done : List (ReadCall × ReadReply E)} {progress : Progress E}
    (kept : Kept range file reading done progress) {chunks : List (List UInt8)} {total : Nat}
    (returned : reading.phase = .returned chunks total) :
    concat chunks total = some ((file.drop range.offset).take range.length) := by
  have answers : ∀ pair ∈ done, Answers file pair.1 pair.2 := by
    intro pair member
    obtain ⟨read, call, reply⟩ := kept.took pair member
    obtain ⟨other, same, answers⟩ := kept.issued read _ reply
    rwa [Option.some.inj (call.symm.trans same)]
  have sequential := kept.sequential.of pieces answers
  have atPhase := kept.atPhase
  rw [returned] at atPhase
  cases atPhase with
  | filled full =>
    obtain ⟨bytes, length, short⟩ := sequential
    obtain rfl := Nat.le_antisymm short full
    rw [← bytes, ← length]
    exact concat_eq chunks
  | ended =>
    obtain ⟨bytes, length, short, past⟩ := sequential
    rw [take_of_length_le (by rw [length_drop]; omega)] at bytes ⊢
    · rw [← bytes, ← length]
      exact concat_eq chunks

/-- **Reading in pieces is reading in sequence.** In every run the replies that the loop has taken
are those of sequential reads; it fails where these fail, returns the bytes of the range that the
file has, and `undefined` only when aborted. Runs are bounded, and a loop that has not ended goes on
once the read it awaits has settled. -/
theorem readRange_as_sequential (pieces : 0 < range.chunk) (deep : 0 < range.depth) {events : Nat}
    {reading : Reading E} (run : Run range file events reading) :
    (∃ done progress, Sequential range done progress ∧ (∀ pair ∈ done, Took reading pair) ∧
      (∀ error, reading.phase = .failed error ↔ progress = .failed error) ∧
      (∀ chunks total, reading.phase = .returned chunks total →
        progress = .ended chunks total ∨ progress = .reading chunks total ∧ range.length ≤ total) ∧
      ∀ chunks total next head inFlight,
        reading.phase = .awaits chunks total next head inFlight →
        progress = .reading chunks total ∧ total < range.length) ∧
    (∀ chunks total, reading.phase = .returned chunks total →
      concat chunks total = some ((file.drop range.offset).take range.length)) ∧
    (reading.phase = .undefined → reading.aborted = true) ∧
    reading.phase ≠ .crashed ∧
    events ≤ (range.depth + 1) * (range.length + 1) + 1 ∧
    ∀ chunks total next head inFlight, reading.phase = .awaits chunks total next head inFlight →
      head.read < reading.issued.length ∧
      (head.read ∈ keys reading.settled → (range.step reading .resumes).isSome = true) := by
  obtain ⟨done, progress, kept, bound⟩ := run.kept deep
  have atPhase := kept.atPhase
  refine ⟨⟨done, progress, kept.sequential, kept.took, ?_, ?_, ?_⟩,
    fun _ _ returned => kept.returned pieces returned, ?_, ?_, by omega, ?_⟩
  · intro error
    constructor
    · intro failed
      rw [failed] at atPhase
      cases atPhase
      rfl
    · rintro rfl
      generalize reading.phase = phase at atPhase ⊢
      cases atPhase
      rfl
  · intro chunks total returned
    rw [returned] at atPhase
    cases atPhase with
    | filled full => exact .inr ⟨rfl, full⟩
    | ended => exact .inl rfl
  · intro chunks total next head inFlight awaits
    rw [awaits] at atPhase
    cases atPhase with
    | awaits more chained => exact ⟨rfl, more⟩
  · intro undefined
    rw [undefined] at atPhase
    cases atPhase with
    | undefined stopped => exact stopped
  · intro crashed
    rw [crashed] at atPhase
    cases atPhase
  · intro chunks total next head inFlight awaits
    rw [awaits] at atPhase
    cases atPhase with
    | awaits more chained =>
      refine ⟨(List.getElem?_eq_some_iff.mp chained.2.1).1, fun settled => ?_⟩
      unfold ReadRange.step
      rw [awaits]
      exact (Option.isSome_map).trans (Assoc.has_iff.mpr settled)

/-- After a short read the second read in flight is dropped, and its failure with it. -/
theorem readRange_as_sequential_short :
    concat [[2], [3, 4], [5]] 4 = some ((([1, 2, 3, 4, 5, 6] : List UInt8).drop 1).take 4) := by
  have failed : Run (E := Unit) ⟨1, 4, 2, 2⟩ [1, 2, 3, 4, 5, 6] 1
      ⟨[⟨1, 2⟩, ⟨3, 2⟩], [(1, .failed ())], false, .awaits [] 0 5 ⟨0, 2⟩ [⟨1, 2⟩]⟩ :=
    .step .start (.settles 1 (.failed ())) (fun _ _ => trivial) rfl
  have short := failed.step (.settles 0 (.bytes [2]))
    (by rintro _ ⟨⟩; exact ⟨by decide, by decide, fun none => absurd none (by decide)⟩) rfl
  have again : Run (E := Unit) ⟨1, 4, 2, 2⟩ [1, 2, 3, 4, 5, 6] 3
      ⟨[⟨1, 2⟩, ⟨3, 2⟩, ⟨2, 2⟩, ⟨4, 1⟩], [(1, .failed ()), (0, .bytes [2])], false,
        .awaits [[2]] 1 5 ⟨2, 2⟩ [⟨3, 1⟩]⟩ := short.step .resumes trivial rfl
  have last := again.step (.settles 3 (.bytes [5]))
    (by rintro _ ⟨⟩; exact ⟨by decide, by decide, fun none => absurd none (by decide)⟩) rfl
  have next := last.step (.settles 2 (.bytes [3, 4]))
    (by rintro _ ⟨⟩; exact ⟨by decide, by decide, fun none => absurd none (by decide)⟩) rfl
  have run := (next.step .resumes trivial rfl).step .resumes trivial rfl
  exact (readRange_as_sequential (by decide) (by decide) run).2.1 _ _ rfl

end TianGong.Remote.ReadRange
