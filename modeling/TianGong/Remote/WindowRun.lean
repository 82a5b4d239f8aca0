/-
**The output window drops only what cannot matter.**

A run pushes text to a window and takes events from it, in any order. The caller counts what the
events skip, and feeds them to a buffer that keeps a tail with the window's limits.

* `run_follows`: the events of a run and what is held stand for all that was pushed.
* `WindowDelivers`, `window_delivers`: the counts, the order, and the tail are those of the text.
-/

import Mathlib.Algebra.GroupWithZero.Nat
import Mathlib.Data.List.ReduceOption
import TianGong.Remote.Pending

namespace TianGong.Remote

open Output (NEWLINE OutputSkip OutputLimits OutputBuffer OutputEvent Pushed Exceeds skipOf pushes)
open Utf8 (encodeChars units)
open List

/-! ### Runs -/

/-- What is done with a window. -/
inductive WindowCall where
  | push (stream : Stream) (text : List Char)
  | take

/-- The characters a call pushes, with their stream. -/
def WindowCall.told : WindowCall → List (Stream × Char)
  | .push stream text => text.map fun x => (stream, x)
  | .take => []

/-- The window and the events after a call. -/
def windowStep (state : Pending × List WindowEvent) : WindowCall → Pending × List WindowEvent
  | .push stream text => (state.1.push stream (encodeChars text), state.2)
  | .take => (state.1.take.2, state.2 ++ state.1.take.1)

def windowRun (window : Window) (calls : List WindowCall) : Pending × List WindowEvent :=
  calls.foldl windowStep ({ window := window }, [])

/-- Everything that is pushed. -/
def told (calls : List WindowCall) : List (Stream × Char) := calls.flatMap WindowCall.told

/-- What is pushed since the last `take`. -/
def sinceTake (calls : List WindowCall) : List (Stream × Char) :=
  calls.foldl (fun since call => match call with
    | .push stream text => since ++ text.map fun x => (stream, x)
    | .take => []) []

/-- The events of a run that ends with a `take`. -/
def delivered (window : Window) (calls : List WindowCall) : List WindowEvent :=
  (windowRun window (calls ++ [.take])).2

/-! ### What the caller counts -/

namespace WindowEvent

def skippedBytes (event : WindowEvent) : Nat := (event.skipped.map OutputSkip.bytes).getD 0

def skippedNewlines (event : WindowEvent) : Nat := (event.skipped.map OutputSkip.newlines).getD 0

/-- The bytes of an event, with its stream. -/
def tags (event : WindowEvent) : List (Stream × UInt8) :=
  event.text.map fun byte => (event.stream, byte)

end WindowEvent

/-- The bytes that are delivered or skipped. -/
def totalBytes (events : List WindowEvent) : Nat :=
  (events.map fun event => event.skippedBytes + event.text.length).sum

/-- The newlines that are delivered or skipped. -/
def totalNewlines (events : List WindowEvent) : Nat :=
  (events.map fun event => event.skippedNewlines + newlineCount event.text).sum

/-- The text after the last skip. -/
def afterSkip (events : List WindowEvent) : List UInt8 :=
  events.foldl (fun after event =>
    if event.skipped.isSome then event.text else after ++ event.text) []

/-- The bytes of characters, with their streams. -/
def byteTags (told : List (Stream × Char)) : List (Stream × UInt8) :=
  told.flatMap fun x => (String.utf8EncodeChar x.2).map fun byte => (x.1, byte)

/-- The characters of a text, without their streams. -/
def textOf (told : List (Stream × Char)) : List Char := told.map Prod.snd

/-- A buffer is given an event, the skip declared before its text, or asked for a snapshot. -/
def feed (buffer : OutputBuffer) : Option WindowEvent → OutputBuffer
  | none => buffer.snapshot.2
  | some event => (buffer.push (.string (Utf8.decode event.text)) event.skipped).2

/-- A buffer is given text as it is. -/
def feedText (buffer : OutputBuffer) (text : List Char) : OutputBuffer :=
  (buffer.push (.string (units text)) none).2

/-- **What a window delivers** of the text of some calls. -/
structure WindowDelivers (window : Window) (calls : List WindowCall) : Prop where
  /-- Delivered and skipped text are counted as what was pushed. -/
  bytes : totalBytes (delivered window calls) = (encodeChars (textOf (told calls))).length
  newlines : totalNewlines (delivered window calls) =
    newlineCount (encodeChars (textOf (told calls)))
  /-- What follows skipped text in its event is more than the window. -/
  outside : ∀ event ∈ delivered window calls, event.skipped.isSome →
    window.maxBytes < event.text.length ∨ window.maxLines < newlineCount event.text
  /-- The text of an event stands right after what is counted before it. -/
  place : ∀ earlier event later, delivered window calls = earlier ++ event :: later →
    event.text <+: (encodeChars (textOf (told calls))).drop
      (totalBytes earlier + event.skippedBytes)
  /-- `endsWithNewline` is about the text right before the event's. -/
  ends : ∀ earlier event later, delivered window calls = earlier ++ event :: later →
    ∀ skipped ∈ event.skipped, skipped.endsWithNewline =
      (((encodeChars (textOf (told calls))).take
        (totalBytes earlier + event.skippedBytes)).getLast? == some NEWLINE)
  /-- The text after the last skip is a suffix, in whole characters. -/
  suffix : ∃ front back, textOf (told calls) = front ++ back ∧
    afterSkip (delivered window calls) = encodeChars back
  /-- Without a skip the streams are apart and in order: in a run, and in what one `take` gives. -/
  order : (∀ event ∈ delivered window calls, event.skipped = none) →
    (delivered window calls).flatMap WindowEvent.tags = byteTags (told calls)
  orderTaken : (∀ event ∈ (windowRun window calls).1.take.1, event.skipped = none) →
    (windowRun window calls).1.take.1.flatMap WindowEvent.tags = byteTags (sinceTake calls)
  apart : (windowRun window calls).1.take.1.IsChain fun a b => a.stream ≠ b.stream
  /-- A buffer with the same limits ends with the tail of the whole text, however often it is asked
  for a snapshot before. -/
  tail : ∀ fed : List (Option WindowEvent), fed.reduceOption = delivered window calls →
    ∀ texts : List (List Char), texts.flatten = textOf (told calls) →
      (fed.foldl feed { limits := ⟨window.maxBytes, window.maxLines, .tail⟩ }).snapshot.1 =
        (texts.foldl feedText { limits := ⟨window.maxBytes, window.maxLines, .tail⟩ }).snapshot.1

/-! ### Deliveries -/

/-- An event, with the characters it stands for: those that are gone, and its text. -/
structure Delivery where
  stream : Stream
  gone : List (Stream × Char)
  kept : List (Stream × Char)

namespace Delivery

/-- The event of a part. -/
def event (part : Delivery) : WindowEvent where
  stream := part.stream
  text := encodeChars (textOf part.kept)
  skipped := if part.gone = [] then none else some (skipOf (units (textOf part.gone)))

/-- The part can stand in what a window delivers. -/
structure Fair (window : Window) (part : Delivery) : Prop where
  proves : part.gone ≠ [] → window.proves (encodeChars (textOf part.kept)).length
    (newlineCount (encodeChars (textOf part.kept)))
  stream : part.gone = [] → ∀ x ∈ part.kept, x.1 = part.stream

end Delivery

/-- The characters some parts stand for. -/
def whole (parts : List Delivery) : List (Stream × Char) :=
  parts.flatMap fun part => part.gone ++ part.kept

/-- The counts of removed text are what a producer declares. -/
theorem skipOf_removed (removed : List Char) :
    skipOf (units removed) =
      { bytes := (Skipped.add {} (encodeChars removed)).bytes
        newlines := (Skipped.add {} (encodeChars removed)).newlines
        endsWithNewline := (Skipped.add {} (encodeChars removed)).endsWithNewline } := by
  have ends : Output.endsWithNewline (units removed) =
      ((encodeChars removed).getLast? == some NEWLINE) := by
    have last := Utf8.getLast_encode (units removed)
    rw [Utf8.encode_units] at last
    rw [Output.endsWithNewline, Bool.eq_iff_iff, beq_iff_eq, beq_iff_eq, NEWLINE, last]
  unfold skipOf Skipped.add
  rw [Utf8.encode_units, ends, Output.countNewlines, ← Utf8.count_encodeChars]
  simp [newlineCount, NEWLINE]

/-- What is taken from a window stands for all that was pushed since the last time. -/
theorem Holds.take {pending : Pending} {told gone : List (Stream × Char)}
    {held : List (Stream × List Char)} (holds : Holds pending told gone held) :
    ∃ parts : List Delivery, pending.take.1 = parts.map Delivery.event ∧ told = whole parts ∧
      (∀ part ∈ parts, part.Fair pending.window) ∧
      (parts.map Delivery.stream).IsChain fun a b => a ≠ b := by
  have skipped := holds.skipped
  unfold Measures at skipped
  unfold Pending.take
  by_cases none : gone = []
  · rw [none, map_nil, if_pos rfl] at skipped
    refine ⟨held.map fun segment => ⟨segment.1, [], segment.2.map fun x => (segment.1, x)⟩,
      ?_, ?_, ?_, ?_⟩
    · rw [skipped, holds.segments]
      simp [encoded, Delivery.event, textOf, Function.comp_def]
    · rw [holds.told_eq, none, nil_append, whole, tagged, flatMap_map]
      rfl
    · intro part member
      obtain ⟨segment, _, rfl⟩ := mem_map.mp member
      refine ⟨fun some => absurd rfl some, fun _ x inside => ?_⟩
      obtain ⟨_, _, rfl⟩ := mem_map.mp inside
      rfl
    · rw [map_map, isChain_map]
      exact holds.apart
  · rw [if_neg fun empty => none (List.map_eq_nil_iff.mp empty)] at skipped
    refine ⟨[⟨(pending.segments.getLast?.map Prod.fst).getD .stdout, gone, tagged held⟩],
      ?_, ?_, ?_, isChain_singleton _⟩
    · rw [skipped, holds.segments]
      dsimp only
      rw [flatten_encoded, map_singleton, Delivery.event, if_neg none, textOf, textOf,
        skipOf_removed]
      rfl
    · rw [holds.told_eq, whole, flatMap_singleton]
    · intro part member
      rw [mem_singleton.mp member]
      exact ⟨fun _ => holds.proves.resolve_left none, fun empty => absurd empty none⟩

/-! ### Following a run -/

/-- The events of a run and what is held stand for all that was pushed. -/
structure Follows (window : Window) (calls : List WindowCall) (parts : List Delivery)
    (gone : List (Stream × Char)) (held : List (Stream × List Char)) : Prop where
  events : (windowRun window calls).2 = parts.map Delivery.event
  told : told calls = whole parts ++ sinceTake calls
  fair : ∀ part ∈ parts, part.Fair window
  holds : Holds (windowRun window calls).1 (sinceTake calls) gone held
  window : (windowRun window calls).1.window = window

variable (window : Window) (parts : List Delivery) (calls : List WindowCall)

theorem windowRun_concat (call : WindowCall) :
    windowRun window (calls ++ [call]) = windowStep (windowRun window calls) call :=
  foldl_concat ..

theorem told_concat (call : WindowCall) : told (calls ++ [call]) = told calls ++ call.told := by
  rw [told, flatMap_append, flatMap_singleton, told]

theorem whole_append (more : List Delivery) : whole (parts ++ more) = whole parts ++ whole more :=
  flatMap_append

/-- After a `take` the window is a new one. -/
theorem take_rest (pending : Pending) : pending.take.2 = { window := pending.window } := by
  unfold Pending.take
  split <;> rfl

/-- **Every run is followed.** -/
theorem run_follows : ∃ parts gone held, Follows window calls parts gone held := by
  induction calls using List.reverseRecOn with
  | nil =>
    exact ⟨[], [], [], rfl, rfl, fun part member => (by cases member), Holds.new window, rfl⟩
  | append_singleton calls call ih =>
    obtain ⟨parts, gone, held, follows⟩ := ih
    cases call with
    | push stream text =>
      obtain ⟨gone', held', holds⟩ := follows.holds.push stream text
      refine ⟨parts, gone', held', ?_, ?_, follows.fair, ?_, ?_⟩
      · rw [windowRun_concat]
        exact follows.events
      · rw [told_concat, follows.told, sinceTake, sinceTake, foldl_concat, append_assoc]
        rfl
      · rw [windowRun_concat, sinceTake, foldl_concat]
        exact holds
      · rw [windowRun_concat]
        exact (window_push _ _ _).trans follows.window
    | take =>
      obtain ⟨more, events, stands, fair, -⟩ := follows.holds.take
      rw [follows.window] at fair
      refine ⟨parts ++ more, [], [], ?_, ?_, ?_, ?_, ?_⟩
      · rw [windowRun_concat, map_append, ← follows.events, ← events]
        rfl
      · rw [told_concat, follows.told, stands, whole_append, sinceTake, foldl_concat]
        rfl
      · exact fun part member => (mem_append.mp member).elim (follows.fair part) (fair part)
      · rw [windowRun_concat, sinceTake, foldl_concat]
        refine Eq.subst (motive := fun pending => Holds pending [] [] []) (take_rest _).symm ?_
        exact Holds.new _
      · rw [windowRun_concat]
        exact (congrArg Pending.window (take_rest _)).trans follows.window

/-- What is delivered stands for all that was pushed. -/
theorem delivered_parts :
    ∃ parts : List Delivery, delivered window calls = parts.map Delivery.event ∧
      told calls = whole parts ∧ ∀ part ∈ parts, part.Fair window := by
  obtain ⟨parts, gone, held, follows⟩ := run_follows window calls
  obtain ⟨more, events, stands, fair, -⟩ := follows.holds.take
  rw [follows.window] at fair
  refine ⟨parts ++ more, ?_, ?_,
    fun part member => (mem_append.mp member).elim (follows.fair part) (fair part)⟩
  · rw [delivered, windowRun_concat, map_append, ← follows.events, ← events]
    rfl
  · rw [follows.told, stands, whole_append]

/-! ### The counts and the places -/

theorem textOf_append (a b : List (Stream × Char)) : textOf (a ++ b) = textOf a ++ textOf b :=
  map_append

variable (part : Delivery)

theorem whole_cons (parts : List Delivery) :
    whole (part :: parts) = part.gone ++ part.kept ++ whole parts :=
  rfl

theorem textOf_whole_cons (parts : List Delivery) :
    textOf (whole (part :: parts)) =
      textOf part.gone ++ textOf part.kept ++ textOf (whole parts) := by
  rw [whole_cons, textOf_append, textOf_append]

theorem skippedBytes_event : part.event.skippedBytes = (encodeChars (textOf part.gone)).length := by
  unfold WindowEvent.skippedBytes Delivery.event
  split_ifs with none
  · rw [none]
    rfl
  · rw [Option.map_some, Option.getD_some, skipOf, Utf8.encode_units]

theorem skippedNewlines_event :
    part.event.skippedNewlines = newlineCount (encodeChars (textOf part.gone)) := by
  unfold WindowEvent.skippedNewlines Delivery.event
  split_ifs with none
  · rw [none]
    rfl
  · rw [Option.map_some, Option.getD_some, skipOf, newlineCount, NEWLINE, Utf8.count_encodeChars]
    rfl

theorem totalBytes_parts :
    totalBytes (parts.map Delivery.event) = (encodeChars (textOf (whole parts))).length := by
  induction parts with
  | nil => rfl
  | cons part parts ih =>
    rw [textOf_whole_cons, Utf8.encodeChars_append, Utf8.encodeChars_append, length_append,
      length_append, ← ih, ← skippedBytes_event]
    rfl

theorem totalNewlines_parts :
    totalNewlines (parts.map Delivery.event) = newlineCount (encodeChars (textOf (whole parts))) := by
  induction parts with
  | nil => rfl
  | cons part parts ih =>
    rw [textOf_whole_cons, Utf8.encodeChars_append, Utf8.encodeChars_append, newlineCount_append,
      newlineCount_append, ← ih, ← skippedNewlines_event]
    rfl

/-- A part among the others: what its event skips and says stands right after what is counted
before it. -/
theorem place_part {parts : List Delivery} {earlier later : List WindowEvent} {event : WindowEvent}
    (split : parts.map Delivery.event = earlier ++ event :: later) :
    ∃ before part after, parts = before ++ part :: after ∧ event = part.event ∧
      (encodeChars (textOf (whole parts))).take (totalBytes earlier + event.skippedBytes) =
        encodeChars (textOf (whole before)) ++ encodeChars (textOf part.gone) ∧
      (encodeChars (textOf (whole parts))).drop (totalBytes earlier + event.skippedBytes) =
        encodeChars (textOf part.kept) ++ encodeChars (textOf (whole after)) := by
  obtain ⟨before, rest, rfl, rfl, tail⟩ := List.map_eq_append_iff.mp split
  obtain ⟨part, after, rfl, rfl, rfl⟩ := List.map_eq_cons_iff.mp tail
  refine ⟨before, part, after, rfl, rfl, ?_⟩
  have text : encodeChars (textOf (whole (before ++ part :: after))) =
      (encodeChars (textOf (whole before)) ++ encodeChars (textOf part.gone)) ++
        (encodeChars (textOf part.kept) ++ encodeChars (textOf (whole after))) := by
    rw [whole_append, textOf_append, textOf_whole_cons]
    simp only [Utf8.encodeChars_append, append_assoc]
  have length : totalBytes (before.map Delivery.event) + part.event.skippedBytes =
      (encodeChars (textOf (whole before)) ++ encodeChars (textOf part.gone)).length := by
    rw [totalBytes_parts, skippedBytes_event, length_append]
  rw [text, length, take_left, drop_left]
  exact ⟨rfl, rfl⟩

theorem ends_event {part : Delivery} {skipped : OutputSkip} (found : skipped ∈ part.event.skipped)
    (front : List UInt8) :
    skipped.endsWithNewline =
      ((front ++ encodeChars (textOf part.gone)).getLast? == some NEWLINE) := by
  unfold Delivery.event at found
  split_ifs at found with none
  · cases found
  · have equal : skipOf (units (textOf part.gone)) = skipped := Option.some.inj found
    have some : textOf part.gone ≠ [] := fun empty => none (List.map_eq_nil_iff.mp empty)
    rw [← equal, skipOf_removed, List.getLast?_append_of_ne_nil _ (mt encodeChars_eq_nil.mp some)]
    rfl

/-- The text after the last skip is a suffix, in whole characters. -/
theorem afterSkip_parts :
    ∃ front back, textOf (whole parts) = front ++ back ∧
      afterSkip (parts.map Delivery.event) = encodeChars back := by
  induction parts using List.reverseRecOn with
  | nil => exact ⟨[], [], rfl, rfl⟩
  | append_singleton parts part ih =>
    obtain ⟨front, back, text, after⟩ := ih
    have step : afterSkip ((parts ++ [part]).map Delivery.event) =
        if part.event.skipped.isSome then part.event.text
        else afterSkip (parts.map Delivery.event) ++ part.event.text := by
      rw [map_append, map_singleton]
      exact foldl_concat ..
    have all : textOf (whole (parts ++ [part])) =
        textOf (whole parts) ++ (textOf part.gone ++ textOf part.kept) := by
      rw [whole_append, textOf_append, textOf_whole_cons]
      exact congrArg _ (append_nil _)
    rw [step, all]
    by_cases none : part.gone = []
    · refine ⟨front, back ++ textOf part.kept, ?_, ?_⟩
      · rw [none, text, append_assoc]
        rfl
      · rw [Delivery.event, if_pos none, after, Utf8.encodeChars_append]
        rfl
    · refine ⟨textOf (whole parts) ++ textOf part.gone, textOf part.kept, ?_, ?_⟩
      · rw [append_assoc]
      · rw [Delivery.event, if_neg none]
        rfl

/-! ### The streams -/

theorem byteTags_append (a b : List (Stream × Char)) :
    byteTags (a ++ b) = byteTags a ++ byteTags b :=
  flatMap_append

theorem byteTags_same {told : List (Stream × Char)} {stream : Stream}
    (same : ∀ x ∈ told, x.1 = stream) :
    byteTags told = (encodeChars (textOf told)).map fun byte => (stream, byte) := by
  induction told with
  | nil => rfl
  | cons x rest ih =>
    have later := ih fun y member => same y (mem_cons_of_mem x member)
    rw [show textOf (x :: rest) = x.2 :: textOf rest from rfl, Utf8.encodeChars_cons,
      map_append, ← later, byteTags, flatMap_cons, same x mem_cons_self, byteTags]

/-- Parts that skip nothing keep the streams apart. -/
theorem tags_parts {window : Window} {parts : List Delivery} (fair : ∀ part ∈ parts, part.Fair window)
    (none : ∀ event ∈ parts.map Delivery.event, event.skipped = none) :
    (parts.map Delivery.event).flatMap WindowEvent.tags = byteTags (whole parts) := by
  induction parts with
  | nil => rfl
  | cons part parts ih =>
    have empty : part.gone = [] := by
      by_contra some
      have nothing := none part.event mem_cons_self
      rw [Delivery.event, if_neg some] at nothing
      cases nothing
    have rest := ih (fun other member => fair other (mem_cons_of_mem part member))
      fun event member => none event (mem_cons_of_mem _ member)
    rw [map_cons, flatMap_cons, rest, whole_cons, byteTags_append, empty,
      nil_append, byteTags_same ((fair part mem_cons_self).stream empty)]
    rfl

/-! ### The tail -/

/-- What a buffer is pushed of a part. -/
def Delivery.pushed (part : Delivery) : Pushed where
  chunk := .string (units (textOf part.kept))
  omitted := if part.gone = [] then none else some (units (textOf part.gone))

theorem feed_event (buffer : OutputBuffer) (part : Delivery) :
    feed buffer (some part.event) = buffer.after (.push part.pushed) := by
  unfold feed OutputBuffer.after Delivery.event Delivery.pushed
  dsimp only
  rw [Utf8.decode_encodeChars]
  split_ifs <;> rfl

/-- Feeding is a run of the buffer. -/
theorem foldl_feed {parts : List Delivery} {fed : List (Option WindowEvent)}
    (events : fed.reduceOption = parts.map Delivery.event) (buffer : OutputBuffer) :
    ∃ run : List OutputEvent, pushes run = parts.map Delivery.pushed ∧
      fed.foldl feed buffer = run.foldl OutputBuffer.after buffer := by
  induction fed generalizing parts buffer with
  | nil =>
    rw [reduceOption_nil] at events
    rw [List.map_eq_nil_iff.mp events.symm]
    exact ⟨[], rfl, rfl⟩
  | cons item fed ih =>
    cases item with
    | none =>
      obtain ⟨run, pushed, same⟩ := ih events (feed buffer none)
      exact ⟨.snapshot :: run, pushed, same⟩
    | some event =>
      rw [reduceOption_cons_of_some] at events
      obtain ⟨part, later, rfl, rfl, rest⟩ := List.map_eq_cons_iff.mp events.symm
      obtain ⟨run, pushed, same⟩ := ih rest.symm (feed buffer (some part.event))
      refine ⟨.push part.pushed :: run, ?_, ?_⟩
      · rw [map_cons, ← pushed]
        rfl
      · rw [foldl_cons, foldl_cons, ← feed_event]
        exact same

/-- Where no text comes from bytes, the output is all the text. -/
theorem content_strings {segments : List Output.Segment}
    (strings : ∀ s ∈ segments, s.source = .bytes → s.text = []) :
    Output.content segments = Output.flat segments := by
  induction segments with
  | nil => rfl
  | cons s rest ih =>
    rw [Output.content, Output.flat_cons]
    have later := ih fun s' member => strings s' (mem_cons_of_mem s member)
    split_ifs with begins bytes
    · rw [strings s mem_cons_self bytes]
      rfl
    · rfl
    · rw [later]
      have nothing : s.text = [] := by
        by_contra some
        exact begins (.inl some)
      rw [nothing, nil_append]

/-- The segments of a part. -/
def Delivery.segments (part : Delivery) : List Output.Segment :=
  [.run []] ++ (if part.gone = [] then [] else [⟨.omitted, units (textOf part.gone)⟩]) ++
    [⟨.string, units (textOf part.kept)⟩]

theorem push_part {r : Output.Received} (closed : r.run = []) (part : Delivery) :
    r.push part.pushed = { closed := r.closed ++ part.segments, run := [] } := by
  unfold Delivery.pushed Output.Received.push Delivery.segments
  rw [closed]
  split_ifs <;> rfl

theorem flat_segments :
    Output.flat part.segments = units (textOf part.gone) ++ units (textOf part.kept) := by
  have nothing : Output.flat [.run []] = [] := rfl
  unfold Delivery.segments
  rw [Output.flat_append, Output.flat_append, nothing, nil_append]
  split_ifs with none
  · rw [none]
    exact append_nil _
  · simp

theorem strings_segments : ∀ s ∈ part.segments, s.source = .bytes → s.text = [] := by
  intro s member
  unfold Delivery.segments at member
  rcases mem_append.mp member with member | last
  · rcases mem_append.mp member with first | omitted
    · rw [mem_singleton.mp first]
      exact fun _ => rfl
    · split_ifs at omitted
      · cases omitted
      · rw [mem_singleton.mp omitted]
        exact fun bytes => by cases bytes
  · rw [mem_singleton.mp last]
    exact fun bytes => by cases bytes

/-- What has been received of some parts. -/
theorem received_parts :
    (Output.received (parts.map Delivery.pushed)).run = [] ∧
      Output.flat (Output.received (parts.map Delivery.pushed)).closed =
        units (textOf (whole parts)) ∧
      ∀ s ∈ (Output.received (parts.map Delivery.pushed)).closed, s.source = .bytes → s.text = [] := by
  induction parts using List.reverseRecOn with
  | nil => exact ⟨rfl, rfl, fun s member => by cases member⟩
  | append_singleton parts part ih =>
    obtain ⟨run, text, strings⟩ := ih
    rw [map_append, map_singleton, Output.received_append, push_part run]
    refine ⟨rfl, ?_, fun s member => ?_⟩
    · rw [Output.flat_append, text, flat_segments, whole_append, textOf_append, textOf_whole_cons,
        Utf8.units_append, Utf8.units_append, Utf8.units_append]
      exact congrArg _ (append_nil _).symm
    · exact (mem_append.mp member).elim (strings s) (strings_segments part s)

/-- Between characters the end of a stream changes nothing. -/
theorem end_of_idle {buffer : OutputBuffer} (idle : buffer.decoder = {}) :
    buffer.end_ = buffer := by
  obtain ⟨limits, decoder, started, chunks, bytes, newlines, full, total, lines, ends⟩ := buffer
  cases idle
  rfl

/-- **A buffer that is fed parts keeps the tail of their whole text.** -/
theorem snapshot_parts {window : Window} {parts : List Delivery}
    (fair : ∀ part ∈ parts, part.Fair window) {run : List OutputEvent}
    (pushed : pushes run = parts.map Delivery.pushed) :
    (Output.bufferAfter ⟨window.maxBytes, window.maxLines, .tail⟩ run).snapshot.1 =
      Output.bounded (units (textOf (whole parts))) ⟨window.maxBytes, window.maxLines, .tail⟩ := by
  obtain ⟨open_, text, strings⟩ := received_parts parts
  have declared : Output.Declared ⟨window.maxBytes, window.maxLines, .tail⟩ (pushes run) := by
    intro p member skips
    rw [pushed] at member
    obtain ⟨part, inside, rfl⟩ := mem_map.mp member
    refine ⟨rfl, ?_⟩
    unfold Delivery.pushed at skips ⊢
    split_ifs at skips with none
    · cases skips
    · have long := proves_iff.mp ((fair part inside).proves none)
      change Exceeds _ (Utf8.encode (units (textOf part.kept))).length
        ((units (textOf part.kept)).count 0x0A)
      rwa [Utf8.encode_units, ← Utf8.count_encodeChars]
  have whole_ : ¬Output.SplitsPair (pushes run) := by
    rintro ⟨before, p, later, split, cuts⟩
    rw [pushed] at split
    have member : p ∈ parts.map Delivery.pushed := split ▸ mem_append_right _ mem_cons_self
    obtain ⟨part, -, rfl⟩ := mem_map.mp member
    rcases cuts with ⟨-, starts⟩ | ⟨t, chunk, -, starts⟩
    · unfold Delivery.pushed at starts
      split_ifs at starts
      · exact Utf8.not_startsTrail_nil starts
      · exact Utf8.not_startsTrail_units _ starts
    · cases chunk
      exact Utf8.not_startsTrail_units _ starts
  have last := (Output.final_eq_of_whole declared whole_).mpr fun lone => by cases lone.1
  have decoder := (Output.followsTail_run rfl declared whole_).tracks.decoder
  rw [pushed, Output.Received.decoder, open_] at decoder
  have ended : (Output.bufferAfter ⟨window.maxBytes, window.maxLines, .tail⟩ run).end_ =
      Output.bufferAfter ⟨window.maxBytes, window.maxLines, .tail⟩ run :=
    end_of_idle decoder
  have output : Output.output (pushes run) = units (textOf (whole parts)) := by
    rw [pushed, Output.output, Output.Received.segments, content_strings, Output.flat_append, text,
      open_]
    · exact append_nil _
    · intro s member
      rcases mem_append.mp member with closed | last
      · exact strings s closed
      · rw [mem_singleton.mp last, open_]
        exact fun _ => rfl
  rw [Output.finalSnapshot, ended, output] at last
  exact last

/-- Text that is pushed as it is. -/
def Delivery.plain (text : List Char) : Delivery := ⟨.stdout, [], text.map fun x => (.stdout, x)⟩

theorem textOf_plain (texts : List (List Char)) :
    textOf (whole (texts.map Delivery.plain)) = texts.flatten := by
  induction texts with
  | nil => rfl
  | cons text texts ih =>
    rw [map_cons, textOf_whole_cons, ih, flatten_cons]
    exact congrArg (· ++ texts.flatten) (map_snd_tag .stdout text)

theorem foldl_feedText (texts : List (List Char)) (buffer : OutputBuffer) :
    texts.foldl feedText buffer =
      (texts.map fun text => OutputEvent.push (Delivery.plain text).pushed).foldl OutputBuffer.after
        buffer := by
  rw [foldl_map]
  refine congrArg (fun step => texts.foldl step buffer) (funext fun buffer => funext fun text => ?_)
  unfold feedText OutputBuffer.after Delivery.pushed Delivery.plain
  rw [textOf, map_snd_tag]
  rfl

/-- The tail of what is fed is the tail of the text. -/
theorem tail_eq {window : Window} {parts : List Delivery} (fair : ∀ part ∈ parts, part.Fair window)
    {fed : List (Option WindowEvent)} (events : fed.reduceOption = parts.map Delivery.event)
    {texts : List (List Char)} (all : texts.flatten = textOf (whole parts)) :
    (fed.foldl feed { limits := ⟨window.maxBytes, window.maxLines, .tail⟩ }).snapshot.1 =
      (texts.foldl feedText
        { limits := ⟨window.maxBytes, window.maxLines, .tail⟩ }).snapshot.1 := by
  obtain ⟨run, pushed, same⟩ := foldl_feed events
    { limits := ⟨window.maxBytes, window.maxLines, .tail⟩ }
  have plain : pushes (texts.map fun text => OutputEvent.push (Delivery.plain text).pushed) =
      (texts.map Delivery.plain).map Delivery.pushed := by
    rw [pushes, filterMap_map, map_map]
    exact congrFun (filterMap_eq_map (f := Delivery.pushed ∘ Delivery.plain)) texts
  have plainFair : ∀ part ∈ texts.map Delivery.plain, part.Fair window := by
    intro part member
    obtain ⟨text, _, rfl⟩ := mem_map.mp member
    refine ⟨fun some => absurd rfl some, fun _ x inside => ?_⟩
    obtain ⟨_, _, rfl⟩ := mem_map.mp inside
    rfl
  rw [same, foldl_feedText]
  calc _ = _ := snapshot_parts fair pushed
    _ = _ := by rw [← all, ← textOf_plain]
    _ = _ := (snapshot_parts plainFair plain).symm

/-- **The window only drops what cannot matter.** -/
theorem window_delivers (window : Window) (calls : List WindowCall) :
    WindowDelivers window calls := by
  obtain ⟨parts, events, stands, fair⟩ := delivered_parts window calls
  obtain ⟨_, gone, held, follows⟩ := run_follows window calls
  obtain ⟨taken, takenEvents, takenStands, takenFair, apart⟩ := follows.holds.take
  constructor
  · rw [events, totalBytes_parts, stands]
  · rw [events, totalNewlines_parts, stands]
  · rw [events]
    intro event member skips
    obtain ⟨part, inside, rfl⟩ := mem_map.mp member
    unfold Delivery.event at skips
    split_ifs at skips with none
    · cases skips
    · exact proves_iff.mp ((fair part inside).proves none)
  · intro earlier event later split
    rw [events] at split
    obtain ⟨before, part, after, rfl, rfl, _, drops⟩ := place_part split
    rw [stands, drops]
    exact prefix_append _ _
  · intro earlier event later split skipped found
    rw [events] at split
    obtain ⟨before, part, after, rfl, rfl, takes, _⟩ := place_part split
    rw [stands, takes]
    exact ends_event found _
  · rw [events, stands]
    exact afterSkip_parts parts
  · rw [events, stands]
    exact tags_parts fair
  · rw [takenEvents, takenStands]
    exact tags_parts takenFair
  · rw [takenEvents, isChain_map]
    rwa [isChain_map] at apart
  · intro fed same texts all
    rw [events] at same
    rw [stands] at all
    exact tail_eq fair same all

end TianGong.Remote
